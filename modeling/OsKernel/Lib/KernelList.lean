import OsKernel.Debug
import OsKernel.Library.IntrusiveList
import OsKernel.Library.X86

/-! The doubly linked lists of lib/kernel/list.c in the bytes of the memory. A struct list_elem has
its prev at 0 and its next at 4, and a struct list has its head at 0 and its tail at 8. -/
namespace OsKernel
open X86 IntrusiveList

/-- The memory with the nodes, and whether interrupts are on. -/
structure ListState where
  mem : Mem
  intr : Bool

def plistHead (plist : Word) : Word := plist
def plistTail (plist : Word) : Word := plist+8

namespace ListState
variable (s : ListState)

def prev (elem : Word) : Word := load s.mem elem
def next (elem : Word) : Word := load s.mem (elem+4)
def setPrev (elem w : Word) : ListState := { s with mem := store s.mem elem w }
def setNext (elem w : Word) : ListState := { s with mem := store s.mem (elem+4) w }

def intrDisable : Bool × ListState := (s.intr,{ s with intr := false })
def intrSetStatus (status : Bool) : ListState := { s with intr := status }

def listInit (list : Word) : ListState :=
  let s := s.setPrev (plistHead list) 0
  let s := s.setNext (plistHead list) (plistTail list)
  let s := s.setPrev (plistTail list) (plistHead list)
  s.setNext (plistTail list) 0

def listInsertBefore (before elem : Word) : ListState :=
  let (oldStatus,s) := s.intrDisable
  let s := s.setNext (s.prev before) elem
  let s := s.setNext elem before
  let s := s.setPrev elem (s.prev before)
  let s := s.setPrev before elem
  s.intrSetStatus oldStatus

def listPush (plist elem : Word) : ListState := s.listInsertBefore (s.next (plistHead plist)) elem

def listAppend (plist elem : Word) : ListState := s.listInsertBefore (plistTail plist) elem

def listRemove (pelem : Word) : ListState :=
  let (oldStatus,s) := s.intrDisable
  let s := s.setNext (s.prev pelem) (s.next pelem)
  let s := s.setPrev (s.next pelem) (s.prev pelem)
  s.intrSetStatus oldStatus

def listPop (plist : Word) : Except Panic (Word × ListState) :=
  assert (s.next (plistHead plist) ≠ plistTail plist) "list_pop" "plist->head.next != &plist->tail"
    >>= fun _ =>
      let ret := s.next (plistHead plist)
      .ok (ret,s.listRemove (s.next (plistHead plist)))

def listEmpty (plist : Word) : Bool := decide (s.next (plistHead plist) = plistTail plist)

/-- The loops get a number of rounds. The value none means that they have not ended by then. -/
def listLenLoop (plist next ret : Word) : ℕ → Option Word
  | 0 => none
  | rounds+1 =>
    if next ≠ plistTail plist then listLenLoop plist (s.next next) (ret+1) rounds else some ret

def listLen (plist : Word) (rounds : ℕ) : Option Word :=
  s.listLenLoop plist (s.next (plistHead plist)) 0 rounds

def listTraversalLoop (plist : Word) (func : Word → Word → Word) (arg elem : Word) :
    ℕ → Option Word
  | 0 => none
  | rounds+1 =>
    if elem ≠ plistTail plist then
      if func elem arg ≠ 0 then some elem
      else listTraversalLoop plist func arg (s.next elem) rounds
    else some 0

/-- The predicate returns an int. -/
def listTraversal (plist : Word) (func : Word → Word → Word) (arg : Word) (rounds : ℕ) :
    Option Word :=
  let elem := s.next (plistHead plist)
  if s.listEmpty plist then some 0 else s.listTraversalLoop plist func arg elem rounds

def elemFindLoop (plist objElem ptr : Word) : ℕ → Option Bool
  | 0 => none
  | rounds+1 =>
    if ptr ≠ plistTail plist then
      if ptr = objElem then some true else elemFindLoop plist objElem (s.next ptr) rounds
    else some false

def elemFind (plist objElem : Word) (rounds : ℕ) : Option Bool :=
  s.elemFindLoop plist objElem (s.next (plistHead plist)) rounds

end ListState

/-- The pointers in the memory. -/
def linksOf (m : Mem) : Links Word := ⟨fun a => load m (a+4),fun a => load m a⟩

/-- The eight bytes of two nodes are apart. -/
def NodesApart (a b : Word) : Prop := ∀ x, Span a 8 x → ¬ Span b 8 x

section Lists
variable {ι : Type*}

/-- The nodes of a list, with its sentinels. -/
def nodesOf (plist : ι → Word) (ls : ι → List Word) (i : ι) : List Word :=
  spine (fun i => plistHead (plist i)) (fun i => plistTail (plist i)) ls i

/-- A heap of nodes with any number of lists in it. -/
structure ListsAt (s : ListState) (plist : ι → Word) (ls : ι → List Word) : Prop where
  lists : Represents (linksOf s.mem) (fun i => plistHead (plist i)) (fun i => plistTail (plist i)) ls
  headPrev : ∀ i, s.prev (plistHead (plist i)) = 0
  tailNext : ∀ i, s.next (plistTail (plist i)) = 0
  apart : ∀ i, ∀ a ∈ nodesOf plist ls i, ∀ j, ∀ b ∈ nodesOf plist ls j, a ≠ b → NodesApart a b

/-- A node that is on no list. -/
def FreeNode (plist : ι → Word) (ls : ι → List Word) (x : Word) : Prop :=
  ∀ i, ∀ a ∈ nodesOf plist ls i, NodesApart a x

/-- The operations on the represented sequences. The other lists are as before. -/
structure ListOps [DecidableEq ι] (s : ListState) (plist : ι → Word) (ls : ι → List Word) :
    Prop where
  push : ∀ i x, FreeNode plist ls x →
    ListsAt (s.listPush (plist i) x) plist (Function.update ls i (x::ls i))
  append : ∀ i x, FreeNode plist ls x →
    ListsAt (s.listAppend (plist i) x) plist (Function.update ls i (ls i++[x]))
  insertBefore : ∀ i x before as bs, FreeNode plist ls x → ls i = as++before::bs →
    ListsAt (s.listInsertBefore before x) plist (Function.update ls i (as++x::before::bs))
  remove : ∀ i x, x ∈ ls i →
    ListsAt (s.listRemove x) plist (Function.update ls i ((ls i).erase x))
  pop : ∀ i x l, ls i = x::l → ∃ s', s.listPop (plist i) = .ok (x,s') ∧
    ListsAt s' plist (Function.update ls i l)
  empty : ∀ i, s.listEmpty (plist i) = true ↔ ls i = []
  len : ∀ i rounds, (ls i).length < rounds → ∃ n, s.listLen (plist i) rounds = some n ∧
    n.toNat = (ls i).length
  find : ∀ i x rounds, (ls i).length < rounds →
    s.elemFind (plist i) x rounds = some (decide (x ∈ ls i))
  traversal : ∀ i func arg rounds, (ls i).length < rounds →
    s.listTraversal (plist i) func arg rounds =
      some (((ls i).find? fun x => func x arg ≠ 0).getD 0)

end Lists
end OsKernel

import Mathlib.Tactic

/-! A FIFO queue in a ring of cells of which one stays free, so that the two positions tell an
empty queue from a full one. -/
/-- The cells, the position of the next write and the position of the next read. -/
structure RingBuffer (α : Type*) where
  buf : ℕ → α
  head : ℕ
  tail : ℕ

namespace RingBuffer

def next (N pos : ℕ) : ℕ := (pos+1) % N

section Operations
variable {α : Type*}

def put (N : ℕ) (r : RingBuffer α) (a : α) : RingBuffer α :=
  { r with buf := Function.update r.buf r.head a, head := next N r.head }

def get (N : ℕ) (r : RingBuffer α) : α × RingBuffer α := (r.buf r.tail,{ r with tail := next N r.tail })

/-- The ring of N cells holds the elements of the list, the oldest one first. -/
structure Holds (N : ℕ) (r : RingBuffer α) (l : List α) : Prop where
  tail_lt : r.tail < N
  length_lt : l.length < N
  head_eq : r.head = (r.tail+l.length) % N
  cells : ∀ i (h : i < l.length), r.buf ((r.tail+i) % N) = l[i]

end Operations

/-- An offset from a position wraps around at most once. -/
theorem wrap_eq {N t i : ℕ} (ht : t < N) (hi : i ≤ N) :
    (t+i) % N = if t+i < N then t+i else t+i-N := by
  split
  · exact Nat.mod_eq_of_lt ‹_›
  · rw [Nat.mod_eq_sub_mod (by omega)]
    exact Nat.mod_eq_of_lt (by omega)

theorem wrap_inj {N t i j : ℕ} (ht : t < N) (hi : i < N) (hj : j < N)
    (h : (t+i) % N = (t+j) % N) : i = j := by
  rw [wrap_eq ht hi.le,wrap_eq ht hj.le] at h
  split at h <;> split at h <;> omega

theorem next_wrap (N t i : ℕ) : next N ((t+i) % N) = (t+(i+1)) % N := by
  rw [next,Nat.mod_add_mod,Nat.add_assoc]

theorem wrap_next (N t i : ℕ) : (next N t+i) % N = (t+(i+1)) % N := by
  rw [next,Nat.mod_add_mod,Nat.add_assoc,Nat.add_comm 1 i]

section Contents
variable {α : Type*} {N : ℕ} {r : RingBuffer α} {l : List α}

theorem Holds.head_lt (h : r.Holds N l) : r.head < N := by
  rw [h.head_eq]
  exact Nat.mod_lt _ (Nat.zero_lt_of_lt h.tail_lt)

/-- The queue is empty exactly when the positions agree. -/
theorem Holds.empty_iff (h : r.Holds N l) : r.head = r.tail ↔ l = [] := by
  rw [h.head_eq,← List.length_eq_zero_iff]
  constructor
  · intro he
    have ht : (r.tail+l.length) % N = (r.tail+0) % N := by
      rw [he,Nat.add_zero,Nat.mod_eq_of_lt h.tail_lt]
    exact wrap_inj h.tail_lt h.length_lt (Nat.zero_lt_of_lt h.tail_lt) ht
  · intro he
    rw [he,Nat.add_zero,Nat.mod_eq_of_lt h.tail_lt]

/-- The queue is full exactly when one more write would make it look empty. -/
theorem Holds.full_iff (h : r.Holds N l) : next N r.head = r.tail ↔ l.length+1 = N := by
  have hlen := h.length_lt
  have ht := h.tail_lt
  rw [h.head_eq,next_wrap,wrap_eq ht hlen]
  split <;> omega

theorem Holds.empty (buf : ℕ → α) (hN : 0 < N) : (RingBuffer.mk buf 0 0).Holds N [] :=
  ⟨hN,hN,by simp,by simp⟩

/-- Writing at the head appends, unless the queue is full. -/
theorem Holds.put (h : r.Holds N l) (hl : l.length+1 ≠ N) (a : α) :
    (r.put N a).Holds N (l++[a]) := by
  have hlen := h.length_lt
  refine ⟨h.tail_lt,?_,?_,?_⟩
  · rw [List.length_append,List.length_singleton]
    omega
  · change next N r.head = (r.tail+(l++[a]).length) % N
    rw [List.length_append,List.length_singleton,h.head_eq,next_wrap]
  · intro i hi
    rw [List.length_append,List.length_singleton] at hi
    change Function.update r.buf r.head a ((r.tail+i) % N) = (l++[a])[i]
    by_cases hlast : i = l.length
    · subst hlast
      rw [← h.head_eq,Function.update_self]
      simp
    · have hne : (r.tail+i) % N ≠ r.head := by
        intro he
        rw [h.head_eq] at he
        exact hlast (wrap_inj h.tail_lt (by omega) hlen he)
      have hi' : i < l.length := by omega
      rw [Function.update_of_ne hne,h.cells i hi',List.getElem_append_left hi']

/-- Reading at the tail takes the oldest element. -/
theorem Holds.get {a : α} (h : r.Holds N (a :: l)) :
    (r.get N).1 = a ∧ (r.get N).2.Holds N l := by
  have hlen := h.length_lt
  rw [List.length_cons] at hlen
  refine ⟨?_,?_,Nat.lt_of_succ_lt hlen,?_,?_⟩
  · have hc := h.cells 0 (by simp)
    rw [Nat.add_zero,Nat.mod_eq_of_lt h.tail_lt] at hc
    exact hc
  · exact Nat.mod_lt _ (Nat.zero_lt_of_lt h.tail_lt)
  · change r.head = (next N r.tail+l.length) % N
    rw [wrap_next,h.head_eq,List.length_cons]
  · intro i hi
    change r.buf ((next N r.tail+i) % N) = l[i]
    rw [wrap_next,h.cells (i+1) (by simpa using hi)]
    rfl

end Contents
end RingBuffer

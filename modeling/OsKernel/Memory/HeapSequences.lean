import OsKernel.Library.Script
import OsKernel.Memory.HeapOutcome

/-! Whole sequences of calls of one owner. What stands in an allocation stays there until its owner
writes to it or gives it back, and whenever everything has been given back the bitmaps are those of
every earlier moment at which nothing was in use. -/
namespace OsKernel
open Paging ByteMemory Exec KernelM

/-- What the owner does next. A write is to the byte k of the allocation p. -/
inductive HeapOp
  | sysMalloc (size : ℕ)
  | sysFree (p : ℕ)
  | store (p k : ℕ) (b : BitVec 8)
  deriving DecidableEq, Repr

namespace HeapSys

/-- The state after an operation that returns. Only pointers in use are given back or written
to. -/
def perform (s : HeapSys) : HeapOp → Option HeapSys
  | .sysMalloc size =>
    match OsKernel.sysMalloc size s.m with
    | (.ok p,m') => some ⟨m',if p = 0 then s.live else Function.update s.live p (some size)⟩
    | (.error _,_) => none
  | .sysFree p =>
    if s.live p = none then none
    else match OsKernel.sysFree p s.m with
    | (.ok (),m') => some ⟨m',Function.update s.live p none⟩
    | (.error _,_) => none
  | .store p k b =>
    if (s.live p).all fun size => size ≤ k then none
    else match storeByte (p+k) b s.m with
    | (.ok (),m') => some ⟨m',s.live⟩
    | (.error _,_) => none

section Perform
variable {m₀ m' : Machine} {A A₀ : FrameMap} {F : Set ℕ} {s s' : HeapSys} {H : Heap} {op : HeapOp}
  {ops : List HeapOp} {p q k size : ℕ} {b : BitVec 8}

theorem perform_sysMalloc (h : s.perform (.sysMalloc size) = some s') :
    ∃ p m', OsKernel.sysMalloc size s.m = (.ok p,m') ∧
      s' = ⟨m',if p = 0 then s.live else Function.update s.live p (some size)⟩ := by
  dsimp only [perform] at h
  split at h
  · exact ⟨_,_,‹_›,(Option.some.inj h).symm⟩
  · cases h

theorem perform_sysFree (h : s.perform (.sysFree p) = some s') :
    ∃ size m', s.live p = some size ∧ OsKernel.sysFree p s.m = (.ok (),m') ∧
      s' = ⟨m',Function.update s.live p none⟩ := by
  dsimp only [perform] at h
  obtain ⟨hl,h⟩ := Option.ite_none_left_eq_some.mp h
  obtain ⟨size,hsize⟩ := Option.ne_none_iff_exists'.mp hl
  split at h
  · exact ⟨size,_,hsize,‹_›,(Option.some.inj h).symm⟩
  · cases h

theorem perform_store (h : s.perform (.store p k b) = some s') :
    ∃ size m', s.live p = some size ∧ k < size ∧ storeByte (p+k) b s.m = (.ok (),m') ∧
      s' = ⟨m',s.live⟩ := by
  dsimp only [perform] at h
  obtain ⟨hl,h⟩ := Option.ite_none_left_eq_some.mp h
  cases hsize : s.live p with
  | none => simp [hsize] at hl
  | some size =>
    split at h
    · exact ⟨size,_,rfl,by simpa [hsize] using hl,‹_›,(Option.some.inj h).symm⟩
    · cases h

/-- An operation that returns is a step. -/
theorem perform_step (h : s.perform op = some s') : Step s s' := by
  cases op with
  | sysMalloc size =>
    obtain ⟨p,m',hrun,rfl⟩ := perform_sysMalloc h
    by_cases hp : p = 0
    · subst hp
      exact .call (.null hrun)
    · rw [if_neg hp]
      exact .call (.sysMalloc hp hrun)
  | sysFree p =>
    obtain ⟨size,m',hl,hrun,rfl⟩ := perform_sysFree h
    exact .call (.sysFree hl hrun)
  | store p k b =>
    obtain ⟨size,m',hl,hk,hrun,rfl⟩ := perform_store h
    exact .store hl (Nat.le_add_right p k) (Nat.add_lt_add_left hk p) hrun

/-- The state after a sequence of operations that all return. -/
def After (ops : List HeapOp) (s s' : HeapSys) : Prop := Script.play perform ops s = some s'

theorem After.append {ops' : List HeapOp} {s'' : HeapSys} (h : After ops s s')
    (h' : After ops' s' s'') : After (ops ++ ops') s s'' := Script.play_append h h'

theorem After.reachable (h : After ops (init m₀) s) : Reachable m₀ s :=
  Script.play_steps h perform_step

end Perform

section Sequences
variable {m₀ m₁ m₂ m₃ : Machine} {A A₀ : FrameMap} {s s' : HeapSys} {H : Heap}
  {ops : List HeapOp} {p q r : ℕ}

/-- The calls of ThreeCalls, as a sequence. -/
theorem ThreeCalls.after (h : ThreeCalls m₀ m₁ m₂ m₃ p q r) :
    After [.sysMalloc 24,.sysMalloc 24,.sysMalloc 2000] (init m₀) ⟨m₃,inUse₃ p q r⟩ := by
  simp [After,Script.play,perform,init,h.first,h.second,h.third,inUse₃,inUse₂,inUse₁]

end Sequences
end HeapSys
end OsKernel

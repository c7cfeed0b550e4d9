import OsKernel.Library.Outcome

/-! The ways in which the modelled kernel stops: panic_spin never returns, and neither does a
page fault taken in ring 0, whose handler spins after printing its message. -/
namespace OsKernel

/-- Why a call does not return. -/
inductive Panic
  /-- ASSERT prints the name of the function and the text of the condition. -/
  | assert (func condition : String)
  /-- PANIC prints its message. -/
  | panic (func message : String)
  /-- general_intr_handler spins on vector 14. -/
  | pageFault (vaddr : ℕ)
  /-- The caller waits for a lock that another thread holds. -/
  | blocked (func : String)
  /-- A list traversal that meets no sentinel, or a node that is no member of a PCB. -/
  | undefined (func : String)
  deriving DecidableEq, Repr

/-- The macro ASSERT with NDEBUG absent. -/
def assert (condition : Prop) [Decidable condition] (func text : String) : Except Panic Unit :=
  if condition then .ok () else .error (.assert func text)

theorem assert_of {p : Prop} [Decidable p] {func text : String} (h : p) :
    assert p func text = .ok () := by simp [assert,h]

@[simp] theorem assert_eq_ok {p : Prop} [Decidable p] {func text : String} {u : Unit} :
    assert p func text = .ok u ↔ p := by simp [assert]

theorem Outcome.assert {p : Prop} [Decidable p] {func text : String} {E : Panic → Prop}
    (h : p ∨ E (.assert func text)) : Outcome (assert p func text) (fun _ => p) E := by
  unfold OsKernel.assert
  split
  · assumption
  · exact h.resolve_left ‹_›

end OsKernel

import Mathlib.Logic.Relation

/-! Runs that are written down as a list of moves. A move may be impossible in a state; where it is
possible, it is a step, and it keeps what the later moves rely on. -/
namespace Script
variable {S M : Type*} {move : S → M → Option S} {r : S → S → Prop} {P : S → Prop}

/-- The state after a list of moves, if each of them is possible. -/
def play (move : S → M → Option S) : List M → S → Option S
  | [],s => some s
  | m::ms,s => (move s m).bind (play move ms)

section Play
variable {ms ms' : List M} {s s' s'' : S}

theorem play_append (h : play move ms s = some s') (h' : play move ms' s' = some s'') :
    play move (ms ++ ms') s = some s'' := by
  induction ms generalizing s with
  | nil =>
    obtain rfl := Option.some.inj h
    exact h'
  | cons m ms ih =>
    obtain ⟨u,hu,h⟩ := Option.bind_eq_some_iff.mp h
    exact Option.bind_eq_some_iff.mpr ⟨u,hu,ih h⟩

/-- Every played move is a step, if the moves keep what makes them steps. -/
theorem play_run (h : play move ms s = some s') (h₀ : P s)
    (hstep : ∀ {s m s'}, P s → move s m = some s' → r s s' ∧ P s') :
    Relation.ReflTransGen r s s' ∧ P s' := by
  induction ms generalizing s with
  | nil =>
    obtain rfl := Option.some.inj h
    exact ⟨.refl,h₀⟩
  | cons m ms ih =>
    obtain ⟨u,hu,h⟩ := Option.bind_eq_some_iff.mp h
    obtain ⟨hr,hP⟩ := hstep h₀ hu
    obtain ⟨hrun,hP'⟩ := ih h hP
    exact ⟨.head hr hrun,hP'⟩

theorem play_steps (h : play move ms s = some s')
    (hstep : ∀ {s m s'}, move s m = some s' → r s s') : Relation.ReflTransGen r s s' := by
  have hrun := @play_run S M move r fun _ => True
  exact (hrun h trivial fun _ hm => ⟨hstep hm,trivial⟩).1

end Play

end Script

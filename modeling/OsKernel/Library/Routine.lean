import Mathlib.Tactic

/-! Routines that work on a state shared with others, one access at a time. Between two accesses
only the private state of the routine says how it goes on. -/

/-- From a private state and the shared state, one access gives the new shared state and the
private state in which the routine goes on, if it has not returned. -/
abbrev Routine (ε π δ : Type*) := π → δ → Except ε (δ × Option π)

namespace Routine
universe u v w
variable {ε : Type u} {π : Type v} {δ : Type w} {f : Routine ε π δ} {o o' o'' : Option π} {p : π}
  {d d' d'' : δ} {fit g : Prop} {P Q : δ → Prop}

/-- The accesses of a routine that nobody else disturbs. -/
inductive Runs (f : Routine ε π δ) : Option π → δ → Option π → δ → Prop
  | refl (o : Option π) (d : δ) : Runs f o d o d
  | step {p : π} {o o' : Option π} {d d' d'' : δ} (h : f p d = .ok (d',o))
    (h' : Runs f o d' o' d'') : Runs f (some p) d o' d''

theorem Runs.single (h : f p d = .ok (d',o)) : Runs f (some p) d o d' := .step h (.refl o d')

theorem Runs.trans (h : Runs f o d o' d') (h' : Runs f o' d' o'' d'') : Runs f o d o'' d'' := by
  induction h with
  | refl => exact h'
  | step hs _ ih => exact .step hs (ih h')

/-- What is left to do after an access belongs to the whole routine. -/
theorem Runs.of_step (h : f p d = .ok (d',o)) (hr : Runs f (some p) d none d'') :
    Runs f o d' none d'' := by
  cases hr with
  | step hs hr' =>
    rw [h] at hs
    obtain ⟨rfl,rfl⟩ := Prod.mk.inj (Except.ok.inj hs)
    exact hr'

/-- A run and a complete run from the same place have the same rest. -/
theorem Runs.rest (h : Runs f o d o' d') (hr : Runs f o d none d'') : Runs f o' d' none d'' := by
  induction h with
  | refl => exact hr
  | step hs _ ih => exact ih (hr.of_step hs)

/-- The routine fails at some access. -/
def Faults (f : Routine ε π δ) (o : Option π) (d : δ) : Prop :=
  ∃ p d' e, Runs f o d (some p) d' ∧ f p d' = .error e

theorem Faults.not_returns (h : Faults f o d) : ¬Runs f o d none d'' := by
  obtain ⟨p,d',e,hr,he⟩ := h
  intro hn
  cases hr.rest hn with
  | step hs _ =>
    rw [he] at hs
    cases hs

/-- The routine returns with a state in P if the condition holds, and fails if not. -/
structure Ends (f : Routine ε π δ) (fit : Prop) (P : δ → Prop) (o : Option π) (d : δ) : Prop where
  returns : fit → ∃ d', Runs f o d none d' ∧ P d'
  faults : ¬fit → Faults f o d

theorem Ends.of_runs (hr : Runs f o d o' d') (h : Ends f fit P o' d') : Ends f fit P o d := by
  refine ⟨fun hf => ?_,fun hf => ?_⟩
  · obtain ⟨d₁,hd,hP⟩ := h.returns hf
    exact ⟨d₁,hr.trans hd,hP⟩
  · obtain ⟨p,d₁,e,hd,he⟩ := h.faults hf
    exact ⟨p,d₁,e,hr.trans hd,he⟩

theorem Ends.error {e : ε} (h : f p d = .error e) (hf : ¬fit) : Ends f fit P (some p) d :=
  ⟨fun hfit => absurd hfit hf,fun _ => ⟨p,d,e,.refl _ _,h⟩⟩

theorem Ends.done (h : Runs f o d none d') (hP : P d') : Ends f True P o d :=
  ⟨fun _ => ⟨d',h,hP⟩,fun hf => absurd trivial hf⟩

theorem Ends.lands (h : Runs f o d none d') (hf : fit) : Ends f fit (· = d') o d :=
  ⟨fun _ => ⟨d',h,rfl⟩,fun hn => absurd hf hn⟩

theorem Ends.congr (h : Ends f fit P o d) (hg : fit ↔ g) : Ends f g P o d :=
  ⟨fun hg' => h.returns (hg.mpr hg'),fun hg' => h.faults fun hf => hg' (hg.mp hf)⟩

theorem Ends.mono (h : Ends f fit P o d) (hP : ∀ d', P d' → Q d') : Ends f fit Q o d :=
  ⟨fun hf => (h.returns hf).imp fun d' hd => ⟨hd.1,hP d' hd.2⟩,h.faults⟩

theorem Runs.unique (h : Runs f o d none d') (h' : Runs f o d none d'') : d' = d'' := by
  cases h.rest h' with
  | refl => rfl

/-- Every complete run ends in P. -/
theorem Ends.of_returns (h : Ends f fit P o d) (hr : Runs f o d none d') : P d' := by
  by_cases hf : fit
  · obtain ⟨d₁,hd,hP⟩ := h.returns hf
    exact hd.unique hr ▸ hP
  · exact absurd hr (h.faults hf).not_returns

/-! A routine that calls another one. -/

section Calls
variable {π' : Type*} {f' : Routine ε π' δ} {inner : π → π'} {after : Option π'}

/-- The accesses of the callee are those of the caller, which goes on after the return. -/
def Calls (f : Routine ε π δ) (f' : Routine ε π' δ) (inner : π → π') (after : Option π') : Prop :=
  ∀ p d, f' (inner p) d = (f p d).map fun x => (x.1,x.2.elim after fun q => some (inner q))

theorem Runs.call (hc : Calls f f' inner after) (h : Runs f o d o' d') :
    Runs f' (o.elim after fun q => some (inner q)) d (o'.elim after fun q => some (inner q)) d' := by
  induction h with
  | refl => exact .refl _ _
  | @step p o o' d d' d'' hs _ ih =>
    have heq := hc p d
    rw [hs] at heq
    exact .step heq ih

/-- The call and what follows it. -/
theorem Ends.call (hc : Calls f f' inner after) (h : Ends f fit P (some p) d)
    (hn : fit → ∀ d', P d' → Ends f' g Q after d') : Ends f' (fit ∧ g) Q (some (inner p)) d := by
  refine ⟨fun hf => ?_,fun hf => ?_⟩
  · obtain ⟨d₁,hd,hP⟩ := h.returns hf.1
    obtain ⟨d₂,hd',hQ⟩ := (hn hf.1 d₁ hP).returns hf.2
    exact ⟨d₂,(hd.call hc).trans hd',hQ⟩
  · by_cases hfit : fit
    · obtain ⟨d₁,hd,hP⟩ := h.returns hfit
      obtain ⟨q,d₂,e,hd',he⟩ := (hn hfit d₁ hP).faults fun hg => hf ⟨hfit,hg⟩
      exact ⟨q,d₂,e,(hd.call hc).trans hd',he⟩
    · obtain ⟨q,d₁,e,hd,he⟩ := h.faults hfit
      refine ⟨inner q,d₁,e,hd.call hc,?_⟩
      rw [hc,he]
      rfl

end Calls
end Routine

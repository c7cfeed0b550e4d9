import Mathlib.Logic.Basic
import Mathlib.Tactic

/-! Triples for computations that return a value or stop with an error. The two postconditions
are kept apart, so that one derivation gives both what a call returns and how it can fail. -/

/-- The computation x returns a value in P or fails with an error in E. -/
def Outcome {ε α : Type*} (x : Except ε α) (P : α → Prop) (E : ε → Prop) : Prop :=
  match x with
  | .ok a => P a
  | .error e => E e

namespace Outcome
universe u v
variable {ε : Type u} {α β σ : Type v} {x : Except ε α} {P Q : α → Prop} {E F : ε → Prop}

@[simp] theorem ok (a : α) : Outcome (.ok a : Except ε α) P E ↔ P a := Iff.rfl
@[simp] theorem error (e : ε) : Outcome (.error e : Except ε α) P E ↔ E e := Iff.rfl
@[simp] theorem pure (a : α) : Outcome (Pure.pure a : Except ε α) P E ↔ P a := Iff.rfl

theorem mono (h : Outcome x P E) (hp : ∀ a, P a → Q a) (he : ∀ e, E e → F e) :
    Outcome x Q F := by
  cases x with
  | ok a => exact hp a h
  | error e => exact he e h

theorem true (x : Except ε α) : Outcome x (fun _ => True) (fun _ => True) := by
  cases x <;> trivial

/-- Sequential composition. -/
theorem bind {f : α → Except ε β} {Q : β → Prop} (h : Outcome x P E)
    (hf : ∀ a, P a → Outcome (f a) Q E) : Outcome (x >>= f) Q E := by
  cases x with
  | ok a => exact hf a h
  | error e => exact h

theorem of_ok {a : α} (h : Outcome x P E) (hx : x = .ok a) : P a := by
  subst hx
  exact h

theorem of_error {e : ε} (h : Outcome x P E) (hx : x = .error e) : E e := by
  subst hx
  exact h

/-- Two derivations about one computation. -/
theorem conj {P' : α → Prop} {E' : ε → Prop} (h : Outcome x P E) (h' : Outcome x P' E') :
    Outcome x (fun a => P a ∧ P' a) (fun e => E e ∧ E' e) := by
  cases x with
  | ok a => exact ⟨h,h'⟩
  | error e => exact ⟨h,h'⟩

theorem of_eq {a : α} (hx : x = .ok a) (h : P a) : Outcome x P E := by
  subst hx
  exact h

end Outcome

section Inversion
universe u v
variable {ε : Type u} {α β : Type v}

/-- A sequence returns exactly when both parts do. -/
theorem bind_eq_ok_iff {x : Except ε α} {f : α → Except ε β} {b : β} :
    (x >>= f) = .ok b ↔ ∃ a, x = .ok a ∧ f a = .ok b := by
  cases x with
  | ok a => simp [bind,Except.bind]
  | error e => simp [bind,Except.bind]

theorem eq_ok_of_toOption {x : Except ε α} {a : α} (h : x.toOption = some a) : x = .ok a := by
  cases x with
  | ok b => exact congrArg Except.ok (Option.some.inj h)
  | error => cases h

theorem bind_of_ok {x : Except ε α} {f : α → Except ε β} {a : α} (h : x = .ok a) :
    (x >>= f) = f a := by
  subst h
  rfl

/-- A pure step between two parts belongs to either of them. -/
theorem bind_ok_bind {γ : Type v} (x : Except ε α) (f : α → β) (k : β → Except ε γ) :
    ((x >>= fun a => .ok (f a)) >>= k) = x >>= fun a => k (f a) := by
  cases x <;> rfl

end Inversion

/-- A computation returns a value in P if the condition f holds, and fails with e if not. -/
structure EndsIf {ε α : Type*} (f : Prop) (P : α → Prop) (e : ε) (x : Except ε α) : Prop where
  ok : f → ∃ a, x = .ok a ∧ P a
  error : ¬f → x = .error e

namespace EndsIf
universe u v
variable {ε : Type u} {α β : Type v} {f g : Prop} {P P' : α → Prop} {Q : β → Prop} {e : ε}
  {x : Except ε α}

/-- Both parts have to be allowed to return. -/
theorem bind {next : α → Except ε β} (h : EndsIf f P e x) (hn : ∀ a, P a → EndsIf g Q e (next a)) :
    EndsIf (f ∧ g) Q e (x >>= next) := by
  refine ⟨fun hfg => ?_,fun hfg => ?_⟩
  · obtain ⟨a,rfl,ha⟩ := h.ok hfg.1
    exact (hn a ha).ok hfg.2
  · by_cases hf : f
    · obtain ⟨a,rfl,ha⟩ := h.ok hf
      exact (hn a ha).error fun hg => hfg ⟨hf,hg⟩
    · rw [h.error hf]
      rfl

theorem mono (h : EndsIf f P e x) (hP : ∀ a, P a → P' a) : EndsIf f P' e x :=
  ⟨fun hf => (h.ok hf).imp fun a ha => ⟨ha.1,hP a ha.2⟩,h.error⟩

theorem congr (h : EndsIf f P e x) (hfg : f ↔ g) : EndsIf g P e x :=
  ⟨fun hg => h.ok (hfg.mpr hg),fun hg => h.error fun hf => hg (hfg.mp hf)⟩

/-- The condition is exact for whatever it makes the returned values satisfy. -/
theorem iff_of (h : EndsIf f P e x) (hP : f → ∀ a, P a → P' a) : (∃ a, x = .ok a ∧ P' a) ↔ f := by
  refine ⟨fun hret => ?_,fun hf => (h.ok hf).imp fun a ha => ⟨ha.1,hP hf a ha.2⟩⟩
  obtain ⟨a,ha,-⟩ := hret
  by_contra hf
  rw [h.error hf] at ha
  cases ha

end EndsIf

import Mathlib.Order.Defs.Unbundled

/-! Computations on a state that return a value or stop with an error. The state that an error
leaves behind is kept, so that what happened before the error can be spoken about. -/

/-- A computation on states in σ with errors in ε. -/
def Exec (σ ε α : Type) : Type := σ → Except ε α × σ

namespace Exec
variable {σ ε α β : Type}

instance : Monad (Exec σ ε) where
  pure a := fun s => (.ok a,s)
  bind x f := fun s =>
    match x s with
    | (.ok a,s') => f a s'
    | (.error e,s') => (.error e,s')

theorem map_id_eq (x : Exec σ ε α) : id <$> x = x := by
  funext s
  simp only [Functor.map]
  split <;> exact Eq.symm ‹_›

theorem bind_bind (x : Exec σ ε α) (f : α → Exec σ ε β) {γ : Type} (g : β → Exec σ ε γ) :
    x >>= f >>= g = x >>= fun a => f a >>= g := by
  funext s
  simp only [Bind.bind]
  cases x s with
  | mk r s' => cases r <;> rfl

instance : LawfulMonad (Exec σ ε) := .mk' _ map_id_eq (fun _ _ => rfl) fun x f g => bind_bind x f g

def get : Exec σ ε σ := fun s => (.ok s,s)

def modify (f : σ → σ) : Exec σ ε Unit := fun s => (.ok (),f s)

def throw (e : ε) : Exec σ ε α := fun s => (.error e,s)

/-- A computation that does not look at the state. -/
def lift (x : Except ε α) : Exec σ ε α := fun s => (x,s)

end Exec

/-- From the state s the computation x returns as P says or fails as E says. -/
def Runs {σ ε α : Type} (x : Exec σ ε α) (s : σ) (P : α → σ → Prop) (E : ε → σ → Prop) : Prop :=
  match x s with
  | (.ok a,s') => P a s'
  | (.error e,s') => E e s'

namespace Runs
variable {σ ε α β : Type} {x : Exec σ ε α} {s s' : σ} {P Q : α → σ → Prop} {E F : ε → σ → Prop}

@[simp] theorem pure (a : α) : Runs (Pure.pure a : Exec σ ε α) s P E ↔ P a s := Iff.rfl
@[simp] theorem get {P : σ → σ → Prop} : Runs (Exec.get : Exec σ ε σ) s P E ↔ P s s := Iff.rfl
@[simp] theorem modify {P : Unit → σ → Prop} (f : σ → σ) :
    Runs (Exec.modify f : Exec σ ε Unit) s P E ↔ P () (f s) := Iff.rfl
@[simp] theorem throw (e : ε) : Runs (Exec.throw e : Exec σ ε α) s P E ↔ E e s := Iff.rfl

theorem mono (h : Runs x s P E) (hp : ∀ a s', P a s' → Q a s') (he : ∀ e s', E e s' → F e s') :
    Runs x s Q F := by
  unfold Runs at h ⊢
  split
  · rename_i heq
    rw [heq] at h
    exact hp _ _ h
  · rename_i heq
    rw [heq] at h
    exact he _ _ h

/-- Sequential composition. -/
theorem bind {f : α → Exec σ ε β} {Q : β → σ → Prop} (h : Runs x s P E)
    (hf : ∀ a s', P a s' → Runs (f a) s' Q E) : Runs (x >>= f) s Q E := by
  unfold Runs at h
  simp only [Runs,Bind.bind]
  cases hx : x s with
  | mk r s' =>
    rw [hx] at h
    cases r with
    | ok a => exact hf a s' h
    | error e => exact h

theorem of_eq {a : α} (hx : x s = (.ok a,s')) (h : P a s') : Runs x s P E := by
  rw [Runs,hx]
  exact h

theorem of_ok {a : α} (h : Runs x s P E) (hx : x s = (.ok a,s')) : P a s' := by
  rw [Runs,hx] at h
  exact h

theorem of_error {e : ε} (h : Runs x s P E) (hx : x s = (.error e,s')) : E e s' := by
  rw [Runs,hx] at h
  exact h

end Runs

section Equations
variable {σ ε α β : Type} {x : Exec σ ε α} {f : α → Exec σ ε β} {s s' : σ}

theorem Exec.bind_of_ok {a : α} (h : x s = (.ok a,s')) : (x >>= f) s = f a s' := by
  simp only [Bind.bind,h]

theorem Exec.bind_of_error {e : ε} (h : x s = (.error e,s')) :
    (x >>= f) s = (.error e,s') := by
  simp only [Bind.bind,h]

/-- A sequence that returns, step by step. -/
theorem Exec.bind_eq_ok {b : β} {s'' : σ} (h : (x >>= f) s = (.ok b,s'')) :
    ∃ a s', x s = (.ok a,s') ∧ f a s' = (.ok b,s'') := by
  cases hx : x s with
  | mk r s' =>
    cases r with
    | ok a => exact ⟨a,s',rfl,by rwa [Exec.bind_of_ok hx] at h⟩
    | error e =>
      rw [Exec.bind_of_error hx] at h
      have hr := (Prod.mk.inj h).1
      contradiction

/-- A run, from its result. -/
theorem Exec.run_eq {r : Except ε α} (h : (x s).1 = r) : x s = (r,(x s).2) := by
  rw [← h]

end Equations

/-- Whichever way the computation ends, the state moves along R. -/
def Exec.Moves {σ ε α : Type} (R : σ → σ → Prop) (x : Exec σ ε α) : Prop := ∀ s, R s (x s).2

namespace Exec.Moves
variable {σ ε α β : Type} {R : σ → σ → Prop} {x : Exec σ ε α} {f : α → Exec σ ε β} {s s' : σ}

theorem modify {g : σ → σ} (h : ∀ s, R s (g s)) : Moves R (Exec.modify g : Exec σ ε Unit) := h

theorem ite {c : Prop} [Decidable c] {y : Exec σ ε α} (hx : Moves R x) (hy : Moves R y) :
    Moves R (if c then x else y) := by
  split
  · exact hx
  · exact hy

section Preorder
variable [Std.Refl R]

theorem pure (a : α) : Moves R (Pure.pure a : Exec σ ε α) := Std.Refl.refl

theorem get : Moves R (Exec.get : Exec σ ε σ) := Std.Refl.refl

theorem throw (e : ε) : Moves R (Exec.throw e : Exec σ ε α) := Std.Refl.refl

/-- The second part starts where the first part has ended, or not at all. -/
theorem after (hf : ∀ a, Moves R (f a)) (s : σ) : R (x s).2 ((x >>= f) s).2 := by
  cases hx : x s with
  | mk r s' =>
    cases r with
    | ok a =>
      rw [Exec.bind_of_ok hx]
      exact hf a s'
    | error e =>
      rw [Exec.bind_of_error hx]
      exact Std.Refl.refl s'

theorem bind [IsTrans σ R] (hx : Moves R x) (hf : ∀ a, Moves R (f a)) : Moves R (x >>= f) :=
  fun s => IsTrans.trans _ _ _ (hx s) (after hf s)

end Preorder
end Exec.Moves

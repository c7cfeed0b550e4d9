import Mathlib.Logic.Relation
import Mathlib.Logic.Function.Basic
import Mathlib.Tactic.Common

/-! Threads on one processor with an interrupt flag. A program is a tree of single
statements; between two of them an interrupt may come while the flag is on. A switch
does not save the flag, the return from an interrupt does. Programs that keep the rules
one by one keep them in every interleaving. -/
namespace Interrupts

/-- A program over the shared state S, with accesses to the places N, functions F, threads T
and failures E. The calls of functions are marked where they start and where they return. -/
inductive Prog (S N F T E : Type) : Type → Type 1
  | ret {α : Type} (a : α) : Prog S N F T E α
  | act {α β : Type} (f : T → S → β × S) (places : List N) (k : β → Prog S N F T E α) :
      Prog S N F T E α
  | getFlag {α : Type} (k : Bool → Prog S N F T E α) : Prog S N F T E α
  | setFlag {α : Type} (b : Bool) (k : Prog S N F T E α) : Prog S N F T E α
  | enter {α : Type} (f : F) (k : Prog S N F T E α) : Prog S N F T E α
  | exit {α : Type} (k : Prog S N F T E α) : Prog S N F T E α
  | iter {α β γ : Type} (b : β) (body : β → Prog S N F T E (β ⊕ γ))
      (k : γ → Prog S N F T E α) : Prog S N F T E α
  | switch {α : Type} (next : T) (k : Prog S N F T E α) : Prog S N F T E α
  | spawn {α : Type} (t : T) (p : Prog S N F T E Unit) (k : Prog S N F T E α) : Prog S N F T E α
  | halt {α : Type} (e : E) : Prog S N F T E α

variable {S N F T E α β γ : Type}

namespace Prog

def bind : {α : Type} → Prog S N F T E α → (α → Prog S N F T E β) → Prog S N F T E β
  | _,ret a,g => g a
  | _,act f places k,g => act f places fun v => (k v).bind g
  | _,getFlag k,g => getFlag fun b => (k b).bind g
  | _,setFlag b k,g => setFlag b (k.bind g)
  | _,enter f k,g => enter f (k.bind g)
  | _,exit k,g => exit (k.bind g)
  | _,iter b body k,g => iter b body fun c => (k c).bind g
  | _,switch next k,g => switch next (k.bind g)
  | _,spawn t p k,g => spawn t p (k.bind g)
  | _,halt e,_ => halt e

instance : Monad (Prog S N F T E) where
  pure := ret
  bind := bind

/-- A call of a function. -/
def call (f : F) (p : Prog S N F T E α) : Prog S N F T E α := enter f (p.bind fun a => exit (ret a))

/-- A loop that ends when its body says so. -/
def loop (b : β) (body : β → Prog S N F T E (β ⊕ γ)) : Prog S N F T E γ := iter b body ret

/-- A program that works on the shared state only, by statements that satisfy P. -/
inductive Plain (P : (β : Type) → (T → S → β × S) → Prop) : {α : Type} → Prog S N F T E α → Prop
  | ret {α : Type} (a : α) : Plain P (ret a)
  | act {α β : Type} {f : T → S → β × S} {k : β → Prog S N F T E α} (hf : P β f)
      (hk : ∀ v, Plain P (k v)) : Plain P (act f [] k)
  | iter {α β γ : Type} (b : β) {body : β → Prog S N F T E (β ⊕ γ)} {k : γ → Prog S N F T E α}
      (hb : ∀ b, Plain P (body b)) (hk : ∀ c, Plain P (k c)) : Plain P (iter b body k)
  | halt {α : Type} (e : E) : Plain P (halt e : Prog S N F T E α)

end Prog

/-- A program that runs or has been interrupted or switched away from, and its open calls
with the flag that each of them started with. -/
structure Frame (S N F T E : Type) where
  prog : Prog S N F T E Unit
  calls : List (F × Bool)

/-- The processor, with the programs of each thread, the innermost interrupt first. -/
structure Machine (S N F T E : Type) where
  data : S
  flag : Bool
  current : T
  stack : T → List (Frame S N F T E)

namespace Machine
variable [DecidableEq T]

def setStack (m : Machine S N F T E) (t : T) (fs : List (Frame S N F T E)) : Machine S N F T E :=
  { m with stack := Function.update m.stack t fs }

/-- One statement of the program p, which runs above the interrupted programs rest. -/
def exec (m : Machine S N F T E) (cs : List (F × Bool)) (rest : List (Frame S N F T E)) :
    Prog S N F T E Unit → Option (Machine S N F T E)
  -- the return from an interrupt, which came while the flag was on
  | .ret _ => if rest.isEmpty then none else some { m.setStack m.current rest with flag := true }
  | .act f _ k =>
    some { m.setStack m.current (⟨k (f m.current m.data).1,cs⟩::rest) with
      data := (f m.current m.data).2 }
  | .getFlag k => some (m.setStack m.current (⟨k m.flag,cs⟩::rest))
  | .setFlag b k => some { m.setStack m.current (⟨k,cs⟩::rest) with flag := b }
  | .enter f k => some (m.setStack m.current (⟨k,(f,m.flag)::cs⟩::rest))
  | .exit k => some (m.setStack m.current (⟨k,cs.tail⟩::rest))
  | .iter b body k =>
    some (m.setStack m.current
      (⟨(body b).bind fun r => r.elim (fun b' => .iter b' body k) k,cs⟩::rest))
  | .switch t k =>
    if (m.stack t).isEmpty then none
    else some { m.setStack m.current (⟨k,cs⟩::rest) with current := t }
  | .spawn t p k =>
    if (m.stack t).isEmpty then some ((m.setStack m.current (⟨k,cs⟩::rest)).setStack t [⟨p,[]⟩])
    else none
  | .halt _ => none

/-- The next statement of the current thread. -/
def next (m : Machine S N F T E) : Option (Machine S N F T E) :=
  match m.stack m.current with
  | [] => none
  | ⟨p,cs⟩::rest => m.exec cs rest p

/-- The next n statements, from states that pass the test. -/
def nexts (test : Machine S N F T E → Bool) : ℕ → Machine S N F T E → Option (Machine S N F T E)
  | 0,m => some m
  | n+1,m => if test m then m.next.bind (nexts test n) else none

/-- One step: a statement, or an interrupt, which starts one of the handlers. -/
inductive Step (handlers : Prog S N F T E Unit → Prop) (m : Machine S N F T E) :
    Machine S N F T E → Prop
  | stmt {m'} (h : m.next = some m') : Step handlers m m'
  | interrupt {p} (hp : handlers p) (hflag : m.flag = true) (hrun : m.stack m.current ≠ []) :
      Step handlers m { m.setStack m.current (⟨p,[]⟩::m.stack m.current) with flag := false }

/-- The places that the next statement reads or writes. -/
def accesses (m : Machine S N F T E) : List N :=
  match m.stack m.current with
  | ⟨.act _ places _,_⟩::_ => places
  | _ => []

/-- The function that the next statement calls. -/
def entering (m : Machine S N F T E) : Option F :=
  match m.stack m.current with
  | ⟨.enter f _,_⟩::_ => some f
  | _ => none

/-- The call that the next statement returns from, with the flag it started with. -/
def returning (m : Machine S N F T E) : Option (F × Bool) :=
  match m.stack m.current with
  | ⟨.exit _,cs⟩::_ => cs.head?
  | _ => none

/-- The innermost open call of the running program, with the flag it started with. -/
def inside (m : Machine S N F T E) : Option (F × Bool) :=
  match m.stack m.current with
  | ⟨_,cs⟩::_ => cs.head?
  | _ => none

omit [DecidableEq T] in
theorem accesses_eq {m : Machine S N F T E} {fr rest} (h : m.stack m.current = fr::rest) :
    m.accesses = match fr.prog with | .act _ places _ => places | _ => [] := by
  obtain ⟨p,cs⟩ := fr
  unfold accesses
  rw [h]
  cases p <;> rfl

omit [DecidableEq T] in
theorem entering_eq {m : Machine S N F T E} {fr rest} (h : m.stack m.current = fr::rest) :
    m.entering = match fr.prog with | .enter f _ => some f | _ => none := by
  obtain ⟨p,cs⟩ := fr
  unfold entering
  rw [h]
  cases p <;> rfl

omit [DecidableEq T] in
theorem returning_eq {m : Machine S N F T E} {fr rest} (h : m.stack m.current = fr::rest) :
    m.returning = match fr.prog with | .exit _ => fr.calls.head? | _ => none := by
  obtain ⟨p,cs⟩ := fr
  unfold returning
  rw [h]
  cases p <;> rfl

theorem nexts_reaches {handlers : Prog S N F T E Unit → Prop} {test : Machine S N F T E → Bool}
    {n : ℕ} {m m' : Machine S N F T E} (h : nexts test n m = some m') :
    Relation.ReflTransGen (fun m m' => test m = true ∧ Step handlers m m') m m' := by
  induction n generalizing m with
  | zero =>
    obtain rfl := Option.some.inj h
    exact .refl
  | succ n ih =>
    simp only [nexts] at h
    split at h
    · obtain ⟨m₁,h₁,h₂⟩ := Option.bind_eq_some_iff.mp h
      exact .head ⟨‹_›,.stmt h₁⟩ (ih h₂)
    · simp at h

end Machine

/-- What is asked of programs: with which flags places may be accessed, what the caller of a
function promises about the flag, with which flags its own statements run, and with which
flag it returns. A call is known by its function and the flag it started with. -/
structure Rules (F : Type) where
  access : Bool → Prop
  promised : F → Bool → Prop
  within : F → Bool → Bool → Prop
  exit : F → Bool → Bool → Prop

/-- The innermost open call may run with this flag. -/
def Rules.Within (R : Rules F) (cs : List (F × Bool)) (flag : Bool) : Prop :=
  ∀ f e, cs.head? = some (f,e) → R.within f e flag

theorem Rules.within_nil (R : Rules F) (flag : Bool) : R.Within [] flag := by
  simp [Rules.Within]

/-- From this flag and these open calls on, the program keeps the rules, gives the processor
away with the flag off only, and ends as Q says. -/
def Prog.Keeps (R : Rules F) : {α : Type} → Prog S N F T E α → Bool → List (F × Bool) →
    (α → Bool → List (F × Bool) → Prop) → Prop
  | _,.ret a,flag,cs,Q => Q a flag cs
  | _,.act _ places k,flag,cs,Q => (places = [] ∨ R.access flag) ∧ ∀ v, (k v).Keeps R flag cs Q
  | _,.getFlag k,flag,cs,Q => (k flag).Keeps R flag cs Q
  | _,.setFlag b k,_,cs,Q => R.Within cs b ∧ k.Keeps R b cs Q
  | _,.enter f k,flag,cs,Q =>
    R.promised f flag → R.within f flag flag ∧ k.Keeps R flag ((f,flag)::cs) Q
  | _,.exit k,flag,cs,Q =>
    ∃ f e cs', cs = (f,e)::cs' ∧ R.exit f e flag ∧ R.Within cs' flag ∧ k.Keeps R flag cs' Q
  | _,.iter (β := β) b body k,flag,cs,Q => ∃ I : β → Bool → Prop, I b flag ∧
    ∀ b flag, I b flag → (body b).Keeps R flag cs fun r flag' cs' => cs' = cs ∧
      r.elim (fun b' => I b' flag') fun c => (k c).Keeps R flag' cs Q
  | _,.switch _ k,flag,cs,Q => flag = false ∧ k.Keeps R false cs Q
  | _,.spawn _ p k,flag,cs,Q =>
    p.Keeps R false [] (fun _ _ _ => True) ∧ k.Keeps R flag cs Q
  | _,.halt _,_,_,_ => True

section Keeps
variable {R : Rules F} {p : Prog S N F T E α} {flag : Bool} {cs : List (F × Bool)}
  {Q Q' : α → Bool → List (F × Bool) → Prop}

theorem Prog.Keeps.mono (h : p.Keeps R flag cs Q) (hq : ∀ a flag cs, Q a flag cs → Q' a flag cs) :
    p.Keeps R flag cs Q' := by
  induction p generalizing flag cs with
  | ret a => exact hq _ _ _ h
  | act f places k ih => exact ⟨h.1,fun v => ih v (h.2 v) hq⟩
  | getFlag k ih => exact ih _ h hq
  | setFlag b k ih => exact ⟨h.1,ih h.2 hq⟩
  | enter f k ih => exact fun hp => ⟨(h hp).1,ih (h hp).2 hq⟩
  | exit k ih =>
    obtain ⟨f,e,cs',hcs,he,hw,hk⟩ := h
    exact ⟨f,e,cs',hcs,he,hw,ih hk hq⟩
  | iter b body k ihb ihk =>
    obtain ⟨I,hb,hI⟩ := h
    refine ⟨I,hb,fun b flag hI' => ihb b (hI b flag hI') ?_⟩
    rintro (b' | c) flag' cs' ⟨hcs,hr⟩
    · exact ⟨hcs,hr⟩
    · exact ⟨hcs,ihk c hr hq⟩
  | switch t k ih => exact ⟨h.1,ih h.2 hq⟩
  | spawn t p k _ ih => exact ⟨h.1,ih h.2 hq⟩
  | halt e => trivial

theorem Prog.Keeps.bind {g : α → Prog S N F T E β} {Q : β → Bool → List (F × Bool) → Prop}
    (h : p.Keeps R flag cs fun a flag cs => (g a).Keeps R flag cs Q) :
    (p.bind g).Keeps R flag cs Q := by
  induction p generalizing flag cs with
  | ret a => exact h
  | act f places k ih => exact ⟨h.1,fun v => ih v (h.2 v)⟩
  | getFlag k ih => exact ih _ h
  | setFlag b k ih => exact ⟨h.1,ih h.2⟩
  | enter f k ih => exact fun hp => ⟨(h hp).1,ih (h hp).2⟩
  | exit k ih =>
    obtain ⟨f,e,cs',hcs,he,hw,hk⟩ := h
    exact ⟨f,e,cs',hcs,he,hw,ih hk⟩
  | iter b body k _ ihk =>
    obtain ⟨I,hb,hI⟩ := h
    refine ⟨I,hb,fun b flag hI' => (hI b flag hI').mono ?_⟩
    rintro (b' | c) flag' cs' ⟨hcs,hr⟩
    · exact ⟨hcs,hr⟩
    · exact ⟨hcs,ihk c hr⟩
  | switch t k ih => exact ⟨h.1,ih h.2⟩
  | spawn t p k _ ih => exact ⟨h.1,ih h.2⟩
  | halt e => trivial

/-- A function that keeps the rules, given what its caller promises. -/
theorem Prog.Keeps.call {f : F} (h : R.promised f flag → R.within f flag flag ∧
      p.Keeps R flag ((f,flag)::cs) fun a flag' cs' => cs' = (f,flag)::cs ∧ R.exit f flag flag' ∧
        R.Within cs flag' ∧ Q a flag' cs) :
    (Prog.call f p).Keeps R flag cs Q := by
  intro hp
  refine ⟨(h hp).1,.bind ((h hp).2.mono ?_)⟩
  rintro a flag' cs' ⟨rfl,he,hw,hq⟩
  exact ⟨f,flag,cs,rfl,he,hw,hq⟩

/-- A loop with an invariant on its variable and the flag. -/
theorem Prog.Keeps.loop {b : β} {body : β → Prog S N F T E (β ⊕ α)} (I : β → Bool → Prop)
    (hb : I b flag)
    (h : ∀ b flag, I b flag → (body b).Keeps R flag cs fun r flag' cs' => cs' = cs ∧
      r.elim (fun b' => I b' flag') fun a => Q a flag' cs) :
    (Prog.loop b body).Keeps R flag cs Q := ⟨I,hb,h⟩

/-- A program that works on the shared state only keeps all rules. -/
theorem Prog.Plain.keeps {P : (β : Type) → (T → S → β × S) → Prop} (h : p.Plain P) (hq : ∀ a, Q a flag cs) : p.Keeps R flag cs Q := by
  induction h generalizing flag with
  | ret a => exact hq a
  | act hf _ ih => exact ⟨.inl rfl,fun v => ih v hq⟩
  | @iter _ _ _ b _ _ _ _ ihb ihk =>
    refine ⟨fun _ flag' => flag' = flag,rfl,?_⟩
    rintro b' _ rfl
    refine ihb b' fun r => ⟨rfl,?_⟩
    cases r with
    | inl _ => rfl
    | inr c => exact ihk c hq
  | halt e => trivial

end Keeps

/-- A program that can go on from this flag. -/
def Frame.Ok (R : Rules F) (flag : Bool) (fr : Frame S N F T E) : Prop :=
  fr.prog.Keeps R flag fr.calls (fun _ _ _ => True) ∧ R.Within fr.calls flag

/-- The innermost program goes on from the given flag, and those that were interrupted go on
with the flag on. -/
def StackOk (R : Rules F) (flag : Bool) : List (Frame S N F T E) → Prop
  | [] => True
  | fr::rest => fr.Ok R flag ∧ ∀ fr' ∈ rest, fr'.Ok R true

namespace Machine
variable [DecidableEq T] {R : Rules F} {handlers : Prog S N F T E Unit → Prop}
  {m m' : Machine S N F T E}

/-- Every thread can go on: the current one from the flag as it is, and every other one with
the flag off, since it is resumed by a switch. -/
structure Ok (R : Rules F) (m : Machine S N F T E) : Prop where
  current : StackOk R m.flag (m.stack m.current)
  others : ∀ t ≠ m.current, StackOk R false (m.stack t)

/-- The callers keep their promises. -/
def Promised (R : Rules F) (m : Machine S N F T E) : Prop :=
  ∀ f, m.entering = some f → R.promised f m.flag

/-- The current thread goes on with another stack and flag. -/
theorem Ok.setCurrent (h : m.Ok R) {d : S} {flag : Bool} {fs : List (Frame S N F T E)}
    (hs : StackOk R flag fs) :
    Ok R { m.setStack m.current fs with data := d, flag := flag } := by
  refine ⟨by simpa [setStack] using hs,fun t ht => ?_⟩
  have ht : t ≠ m.current := ht
  simpa [setStack,ht] using h.others t ht

/-- One statement of a program that keeps the rules. -/
theorem Ok.exec (h : m.Ok R) {cs : List (F × Bool)} {rest : List (Frame S N F T E)}
    {p : Prog S N F T E Unit} (hrest : ∀ fr ∈ rest, fr.Ok R true) (hw : R.Within cs m.flag)
    (hcur : m.stack m.current ≠ [])
    (hp : p.Keeps R m.flag cs fun _ _ _ => True) (hprom : ∀ f k, p = .enter f k → R.promised f m.flag)
    (he : m.exec cs rest p = some m') : m'.Ok R := by
  cases p with
  | ret a =>
    cases rest with
    | nil => simp [Machine.exec] at he
    | cons fr rest =>
      obtain rfl := Option.some.inj he
      exact h.setCurrent ⟨hrest fr (by simp),fun fr' h' => hrest fr' (by simp [h'])⟩
  | act f places k =>
    obtain rfl := Option.some.inj he
    exact h.setCurrent ⟨⟨hp.2 _,hw⟩,hrest⟩
  | getFlag k =>
    obtain rfl := Option.some.inj he
    exact h.setCurrent ⟨⟨hp,hw⟩,hrest⟩
  | setFlag b k =>
    obtain rfl := Option.some.inj he
    exact h.setCurrent ⟨⟨hp.2,hp.1⟩,hrest⟩
  | enter f k =>
    obtain rfl := Option.some.inj he
    obtain ⟨hf,hk⟩ := hp (hprom f k rfl)
    exact h.setCurrent ⟨⟨hk,by simpa [Rules.Within] using hf⟩,hrest⟩
  | exit k =>
    obtain rfl := Option.some.inj he
    obtain ⟨f,e,cs',rfl,-,hw',hk⟩ := hp
    exact h.setCurrent ⟨⟨hk,hw'⟩,hrest⟩
  | iter b body k =>
    obtain rfl := Option.some.inj he
    obtain ⟨I,hb,hI⟩ := hp
    refine h.setCurrent ⟨⟨.bind ((hI b _ hb).mono ?_),hw⟩,hrest⟩
    rintro (b' | c) flag' cs' ⟨rfl,hr⟩
    · exact ⟨I,hr,hI⟩
    · exact hr
  | switch t k =>
    simp only [Machine.exec] at he
    split at he
    · simp at he
    obtain rfl := Option.some.inj he
    obtain ⟨hoff,hk⟩ := hp
    have hs : StackOk R false (⟨k,cs⟩::rest) := ⟨⟨hk,hoff ▸ hw⟩,hrest⟩
    have hall : ∀ u, StackOk R false ((m.setStack m.current (⟨k,cs⟩::rest)).stack u) := by
      intro u
      by_cases hu : u = m.current
      · simpa [setStack,hu] using hs
      · simpa [setStack,hu] using h.others u hu
    refine ⟨?_,fun u _ => hall u⟩
    change StackOk R m.flag _
    rw [hoff]
    exact hall t
  | spawn t q k =>
    simp only [Machine.exec] at he
    split at he
    case isFalse => simp at he
    rename_i hempty
    obtain rfl := Option.some.inj he
    obtain ⟨hq,hk⟩ := hp
    have ht : m.current ≠ t := by
      rintro rfl
      exact hcur (by simpa using hempty)
    refine ⟨?_,fun u hu => ?_⟩
    · simp only [setStack,Function.update_of_ne ht,Function.update_self]
      exact ⟨⟨hk,hw⟩,hrest⟩
    · have hu : u ≠ m.current := hu
      by_cases hut : u = t
      · subst hut
        simp only [setStack,Function.update_self]
        exact ⟨⟨hq,R.within_nil _⟩,by simp⟩
      · simpa [setStack,hu,hut] using h.others u hu
  | halt e => simp [Machine.exec] at he

/-- One step. -/
theorem Ok.step (h : m.Ok R) (hh : ∀ p, handlers p → p.Keeps R false [] fun _ _ _ => True)
    (hprom : m.Promised R) (hs : Step handlers m m') : m'.Ok R := by
  cases hs with
  | stmt hn =>
    have hc := h.current
    cases hst : m.stack m.current with
    | nil => simp [next,hst] at hn
    | cons fr rest =>
      obtain ⟨p,cs⟩ := fr
      rw [hst] at hc
      obtain ⟨⟨hp,hw⟩,hrest⟩ := hc
      simp only [next,hst] at hn
      refine h.exec hrest hw (by simp [hst]) hp ?_ hn
      rintro f k rfl
      exact hprom f (by simp [entering,hst])
  | @interrupt p hp hflag hrun =>
    refine h.setCurrent ⟨⟨hh p hp,R.within_nil _⟩,fun fr hfr => ?_⟩
    have hc := h.current
    cases hst : m.stack m.current with
    | nil => exact absurd hst hrun
    | cons top rest =>
      rw [hst,hflag] at hc
      rw [hst] at hfr
      obtain rfl | hfr := List.mem_cons.mp hfr
      · exact hc.1
      · exact hc.2 fr hfr

/-- A run all of whose callers keep their promises. -/
theorem Ok.run (h : m.Ok R) (hh : ∀ p, handlers p → p.Keeps R false [] fun _ _ _ => True)
    (hr : Relation.ReflTransGen (fun m m' => m.Promised R ∧ Step handlers m m') m m') :
    m'.Ok R := by
  induction hr with
  | refl => exact h
  | tail _ hs ih => exact ih.step hh hs.1 hs.2

omit [DecidableEq T] in
/-- Places are accessed with a flag that allows it. -/
theorem Ok.access (h : m.Ok R) (ha : m.accesses ≠ []) : R.access m.flag := by
  have hc := h.current
  cases hst : m.stack m.current with
  | nil => simp [accesses,hst] at ha
  | cons fr rest =>
    rw [hst] at hc
    rw [accesses_eq hst] at ha
    have hp := hc.1.1
    cases hf : fr.prog with
    | act f places k =>
      rw [hf] at hp ha
      exact hp.1.resolve_left ha
    | _ => simp [hf] at ha

omit [DecidableEq T] in
/-- Functions are called with a flag that they may run with. -/
theorem Ok.enters (h : m.Ok R) {f : F} (he : m.entering = some f) (hp : R.promised f m.flag) :
    R.within f m.flag m.flag := by
  have hc := h.current
  cases hst : m.stack m.current with
  | nil => simp [entering,hst] at he
  | cons fr rest =>
    rw [hst] at hc
    rw [entering_eq hst] at he
    have hk := hc.1.1
    cases hf : fr.prog with
    | enter f' k =>
      rw [hf] at hk he
      obtain rfl := Option.some.inj he
      exact (hk hp).1
    | _ => simp [hf] at he

omit [DecidableEq T] in
/-- Functions return with a flag that they may return with. -/
theorem Ok.returns (h : m.Ok R) {f : F} {e : Bool} (hr : m.returning = some (f,e)) :
    R.exit f e m.flag := by
  have hc := h.current
  cases hst : m.stack m.current with
  | nil => simp [returning,hst] at hr
  | cons fr rest =>
    rw [hst] at hc
    rw [returning_eq hst] at hr
    have hp := hc.1.1
    cases hf : fr.prog with
    | exit k =>
      rw [hf] at hp hr
      obtain ⟨f',e',cs',hcs,he,-⟩ := hp
      simp only [hcs,List.head?_cons,Option.some.injEq,Prod.mk.injEq] at hr
      rw [← hr.1,← hr.2]
      exact he
    | _ => simp [hf] at hr

omit [DecidableEq T] in
/-- Functions run with a flag that they may run with. -/
theorem Ok.within (h : m.Ok R) {f : F} {e : Bool} (hi : m.inside = some (f,e)) :
    R.within f e m.flag := by
  have hc := h.current
  cases hst : m.stack m.current with
  | nil => simp [inside,hst] at hi
  | cons fr rest =>
    rw [hst] at hc
    simp only [inside,hst] at hi
    exact hc.1.2 f e hi

end Machine
end Interrupts

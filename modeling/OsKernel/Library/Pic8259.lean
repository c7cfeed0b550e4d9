import Mathlib.Tactic

/-! The interrupt controller 8259A, and two of them in cascade on the third line of the master.
Lines request on an edge, and a lower number has the higher priority. Of the commands that a
controller takes after its initialization, the mask and the nonspecific end of interrupt are
here. -/
namespace Pic8259

/-- The initialization word that a controller expects next at its data port. -/
inductive Phase
  | icw2 | icw3 | icw4 | ready
  deriving DecidableEq

/-- The registers of requests, of interrupts in service and of masks, and the settings. -/
structure Chip where
  irr : Fin 8 → Bool
  isr : Fin 8 → Bool
  imr : BitVec 8
  base : BitVec 8
  cascade : BitVec 8
  single : Bool
  needIcw4 : Bool
  autoEoi : Bool
  phase : Phase

namespace Chip
variable (c : Chip)

def highest (f : Fin 8 → Bool) : Option (Fin 8) := (List.finRange 8).find? f

/-- The line that the controller requests an interrupt for. An interrupt in service holds back those
of its own priority and lower ones. -/
def requested : Option (Fin 8) :=
  (highest fun i => c.irr i && !c.imr.getLsbD i).filter fun i => ∀ j ≤ i, c.isr j = false

/-- The end of the interrupt of the highest priority in service. -/
def endOfInterrupt : Chip :=
  match highest c.isr with
  | some i => { c with isr := Function.update c.isr i false }
  | none => c

/-- A byte at the command port. -/
def command (b : BitVec 8) : Chip :=
  if b.getLsbD 4 then
    { c with
      irr := fun _ => false
      isr := fun _ => false
      imr := 0
      single := b.getLsbD 1
      needIcw4 := b.getLsbD 0
      autoEoi := false
      phase := .icw2 }
  else if b &&& 0xf8 = 0x20 then c.endOfInterrupt
  else c

/-- The phase after the last word that does not depend on the cascade. -/
def lastPhase : Phase := if c.needIcw4 then .icw4 else .ready

/-- A byte at the data port. -/
def data (b : BitVec 8) : Chip :=
  match c.phase with
  | .icw2 => { c with base := b, phase := if c.single then c.lastPhase else .icw3 }
  | .icw3 => { c with cascade := b, phase := c.lastPhase }
  | .icw4 => { c with autoEoi := b.getLsbD 1, phase := .ready }
  | .ready => { c with imr := b }

def vector (i : Fin 8) : BitVec 8 := (c.base &&& 0xf8) ||| BitVec.ofNat 8 i

def raise (i : Fin 8) : Chip := { c with irr := Function.update c.irr i true }

def drop (i : Fin 8) : Chip := { c with irr := Function.update c.irr i false }

/-- The processor acknowledges the interrupt of a line. -/
def service (i : Fin 8) : Chip :=
  { c with
    irr := Function.update c.irr i false
    isr := if c.autoEoi then c.isr else Function.update c.isr i true }

end Chip

/-- A master with a slave on its third line. -/
structure Cascade where
  master : Chip
  slave : Chip

namespace Cascade
variable (p : Cascade)

/-- The master with the request of the slave on its line. -/
def wired : Chip := { p.master with irr := Function.update p.master.irr 2 p.slave.requested.isSome }

/-- The vector that the processor gets, and the controllers after that. Without a request, which was
there when the processor took notice, it gets the last vector of the master. -/
def acknowledge : BitVec 8 × Cascade :=
  match p.wired.requested with
  | none => (p.master.vector 7,p)
  | some i =>
    if i = 2 then
      match p.slave.requested with
      | none => (p.slave.vector 7,{ p with master := p.wired.service 2 })
      | some j => (p.slave.vector j,⟨p.wired.service 2,p.slave.service j⟩)
    else (p.master.vector i,{ p with master := p.master.service i })

end Cascade

section Requests
variable {c : Chip} {i : Fin 8} {f : Fin 8 → Bool}

lemma highest_eq_some (h : Chip.highest f = some i) : f i = true := List.find?_some h

lemma highest_eq_none (h : ∀ i, f i = false) : Chip.highest f = none := by
  rw [Chip.highest,List.find?_eq_none]
  intro i _
  simp [h i]

lemma highest_first (hi : f i = true) (hf : ∀ j < i, f j = false) : Chip.highest f = some i := by
  cases hk : Chip.highest f with
  | none =>
    have hn := List.find?_eq_none.mp hk i (List.mem_finRange i)
    contradiction
  | some k =>
    obtain ⟨hfk,as,bs,hl,has⟩ := List.find?_eq_some_iff_append.mp hk
    congr 1
    rcases lt_trichotomy k i with hlt | heq | hlt
    · rw [hf k hlt] at hfk
      contradiction
    · exact heq
    · have hmem : i ∈ as++k::bs := hl ▸ List.mem_finRange i
      have hs : (as++k::bs).Pairwise (· < ·) := hl ▸ List.pairwise_lt_finRange 8
      rcases List.mem_append.mp hmem with ha | hb
      · have := has i ha
        simp [hi] at this
      · rcases List.mem_cons.mp hb with rfl | hb
        · rfl
        · have hki := (List.pairwise_cons.mp (List.pairwise_append.mp hs).2.1).1 i hb
          exact absurd hki (not_lt.mpr hlt.le)

/-- With all lines masked, or none requesting, there is no interrupt. -/
lemma requested_none (h : ∀ i : Fin 8, c.irr i = true → c.imr.getLsbD i = true) :
    c.requested = none := by
  have hn : Chip.highest (fun i => c.irr i && !c.imr.getLsbD i) = none := by
    apply highest_eq_none
    intro i
    cases hi : c.irr i with
    | false => rfl
    | true => simp [h i hi]
  rw [Chip.requested,hn]
  rfl

/-- Nothing in service holds back the first line that requests. -/
lemma requested_first (hs : ∀ j, c.isr j = false) (hi : c.irr i = true)
    (hm : c.imr.getLsbD i = false)
    (hf : ∀ j < i, c.irr j = false ∨ c.imr.getLsbD j = true) : c.requested = some i := by
  have hh : Chip.highest (fun i => c.irr i && !c.imr.getLsbD i) = some i := by
    apply highest_first
    · rw [hi,hm]
      rfl
    · intro j hj
      rcases hf j hj with h | h
      · rw [h,Bool.false_and]
      · rw [h,Bool.not_true,Bool.and_false]
  rw [Chip.requested,hh]
  simp [hs]

/-- An end of interrupt ends the only one in service. -/
lemma endOfInterrupt_only (h : ∀ j, c.isr j = true → j = i) :
    ∀ j, c.endOfInterrupt.isr j = false := by
  intro j
  unfold Chip.endOfInterrupt
  cases hk : Chip.highest c.isr with
  | none =>
    have hn := List.find?_eq_none.mp hk j (List.mem_finRange j)
    simpa using hn
  | some k =>
    have hki := h k (highest_eq_some hk)
    by_cases hj : j = k
    · simp [hj]
    · have hf : c.isr j = false := by
        by_contra ht
        exact hj ((h j (by simpa using ht)).trans hki.symm)
      simp [hj,hf]

lemma endOfInterrupt_none (h : ∀ j, c.isr j = false) : c.endOfInterrupt = c := by
  rw [Chip.endOfInterrupt,highest_eq_none h]

/-- An end of interrupt is seen in the interrupts in service only. -/
lemma endOfInterrupt_eq (c : Chip) : c.endOfInterrupt = { c with isr := c.endOfInterrupt.isr } := by
  unfold Chip.endOfInterrupt
  split <;> rfl

end Requests
end Pic8259

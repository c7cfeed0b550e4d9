import Mathlib.Logic.Relation
import OsKernel.Library.Pic8259
import OsKernel.Interrupt.Entry

/-! The interrupt controllers: pic_init, the end of interrupt in the stubs, and the interrupts that
the processor takes while threads run and switch. -/
namespace OsKernel
open X86 Pic8259

def picMCtrl : BitVec 16 := 0x20
def picMData : BitVec 16 := 0x21
def picSCtrl : BitVec 16 := 0xa0
def picSData : BitVec 16 := 0xa1

/-- A byte written to a port. -/
structure Outb where
  port : BitVec 16
  data : BitVec 8
  deriving DecidableEq

/-- The writes of pic_init, in order. -/
def picInit : List Outb :=
  [⟨picMCtrl,0x11⟩,⟨picMData,0x20⟩,⟨picMData,0x04⟩,⟨picMData,0x01⟩,
    ⟨picSCtrl,0x11⟩,⟨picSData,0x28⟩,⟨picSData,0x02⟩,⟨picSData,0x01⟩,
    ⟨picMData,0xfe⟩,⟨picSData,0xff⟩,⟨picMData,0xfc⟩,⟨picSData,0xff⟩]

/-- The ports that a piece of code writes, with the byte in al before it. -/
def outs : BitVec 8 → List Instr → List Outb
  | _,[] => []
  | _,.movAl b::code => outs b code
  | al,.out port::code => ⟨port.setWidth 16,al⟩::outs al code
  | al,_::code => outs al code

/-- The controllers at their ports. -/
def outb (p : Cascade) (o : Outb) : Cascade :=
  if o.port = picMCtrl then { p with master := p.master.command o.data }
  else if o.port = picMData then { p with master := p.master.data o.data }
  else if o.port = picSCtrl then { p with slave := p.slave.command o.data }
  else if o.port = picSData then { p with slave := p.slave.data o.data }
  else p

/-- The code that an interrupt, an exception or a system call has interrupted: its interrupt flag,
and the writes that it still has to do if it is a stub. -/
structure Below where
  enabled : Bool
  todo : List Outb

/-- The controllers, the interrupt flag, the writes that a running stub has still to do, what each
thread goes back to, and the history: the vectors that the controllers have delivered, and for each
line the requests that have come and that have gone. -/
structure PicSys (T : Type) where
  pics : Cascade
  enabled : Bool
  todo : List Outb
  current : T
  below : T → List Below
  delivered : List (BitVec 8)
  raised : Fin 8 → ℕ
  dropped : Fin 8 → ℕ

namespace PicSys
variable {T : Type} [DecidableEq T]

/-- The entry of the kernel by a piece of code. The gates clear the interrupt flag. -/
def entered (s : PicSys T) (code : List Instr) : PicSys T :=
  { s with
    enabled := false
    todo := outs 0 code
    below := Function.update s.below s.current (⟨s.enabled,s.todo⟩::s.below s.current) }

@[simp] lemma entered_below_self (s : PicSys T) (code : List Instr) :
    (s.entered code).below s.current = ⟨s.enabled,s.todo⟩::s.below s.current :=
  Function.update_self _ _ _

@[simp] lemma entered_below_of_ne (s : PicSys T) (code : List Instr) {t : T} (h : t ≠ s.current) :
    (s.entered code).below t = s.below t := Function.update_of_ne h _ _

inductive Step : PicSys T → PicSys T → Prop
  /-- A device of the master requests. A request that is there already is not counted again. -/
  | raise (s : PicSys T) (i : Fin 8) :
      Step s { s with
        pics := { s.pics with master := s.pics.master.raise i }
        raised := Function.update s.raised i
          (s.raised i+if s.pics.master.irr i then 0 else 1) }
  /-- A request is taken back before the processor acknowledges it. -/
  | drop (s : PicSys T) (i : Fin 8) :
      Step s { s with
        pics := { s.pics with master := s.pics.master.drop i }
        dropped := Function.update s.dropped i
          (s.dropped i+if s.pics.master.irr i then 1 else 0) }
  /-- A device of the slave requests, or takes its request back. -/
  | slaveLine (s : PicSys T) (irr : Fin 8 → Bool) :
      Step s { s with pics := { s.pics with slave := { s.pics.slave with irr := irr } } }
  /-- The processor takes an interrupt and enters the stub of its vector. -/
  | interrupt (s : PicSys T) (kind : VectorKind) (h : s.enabled = true) :
      Step s { entered s (intrEntryPushes s.pics.acknowledge.1 kind) with
        pics := s.pics.acknowledge.2
        delivered := s.delivered++[s.pics.acknowledge.1] }
  /-- An exception comes at any time, between the writes of a stub too. -/
  | exception (s : PicSys T) (n : BitVec 8) (kind : VectorKind) :
      Step s (s.entered (intrEntryPushes n kind))
  | syscall (s : PicSys T) (h : s.todo = []) : Step s (s.entered syscallPushes)
  /-- A stub writes to a port. -/
  | write (s : PicSys T) (o : Outb) (rest : List Outb) (h : s.todo = o::rest) :
      Step s { s with pics := outb s.pics o, todo := rest }
  /-- Behind the stub the flag is set and cleared, as by intr_enable and intr_disable. -/
  | setFlag (s : PicSys T) (b : Bool) (h : s.todo = []) : Step s { s with enabled := b }
  /-- The common exit goes back to the code that was interrupted. -/
  | iret (s : PicSys T) (u : Below) (us : List Below) (hb : s.below s.current = u::us)
      (h : s.todo = []) :
      Step s { s with
        enabled := u.enabled
        todo := u.todo
        below := Function.update s.below s.current us }
  /-- Another thread goes on, behind its stub. -/
  | switch (s : PicSys T) (t : T) (h : s.todo = []) (hd : s.enabled = false) :
      Step s { s with current := t }

/-- The controllers after pic_init, whatever state they were in. -/
def init (p : Cascade) (mainThread : T) : PicSys T where
  pics := picInit.foldl outb p
  enabled := false
  todo := []
  current := mainThread
  below := fun _ => []
  delivered := []
  raised := fun _ => 0
  dropped := fun _ => 0

def Reachable (s : PicSys T) : Prop :=
  ∃ p mainThread, Relation.ReflTransGen Step (init p mainThread) s

/-- The line 0 is the timer, the line 1 the keyboard. -/
structure Delivers (s : PicSys T) : Prop where
  /-- Only these two interrupts come, and the one that a controller makes up for a request that was
  taken back. -/
  vectors : ∀ v ∈ s.delivered, v = 0x20 ∨ v = 0x21 ∨ v = 0x27
  /-- When the flag is set, no earlier interrupt holds back another one. -/
  service : s.enabled = true →
    ∀ j, s.pics.master.isr j = false ∧ s.pics.slave.isr j = false
  next : s.enabled = true → s.pics.acknowledge.1 =
    if s.pics.master.irr 0 then 0x20 else if s.pics.master.irr 1 then 0x21 else 0x27
  /-- No request of the two lines gets lost, and none is delivered twice. -/
  timer : s.raised 0 = s.delivered.count 0x20+s.dropped 0+(s.pics.master.irr 0).toNat
  keyboard : s.raised 1 = s.delivered.count 0x21+s.dropped 1+(s.pics.master.irr 1).toNat

end PicSys

/-- The two writes of a stub. -/
def eoiSlave : Outb := ⟨picSCtrl,0x20⟩

def eoiMaster : Outb := ⟨picMCtrl,0x20⟩

section Writes

lemma outs_intrEntryPushes (n : BitVec 8) (kind : VectorKind) :
    outs 0 (intrEntryPushes n kind) = [eoiSlave,eoiMaster] := by
  cases kind <;> rfl

lemma outs_syscallPushes : outs 0 syscallPushes = [] := rfl

/-- The settings that pic_init makes. -/
structure Settled (p : Cascade) : Prop where
  masterImr : p.master.imr = 0xfc
  masterBase : p.master.base = 0x20
  masterEoi : p.master.autoEoi = false
  slaveImr : p.slave.imr = 0xff
  slaveIsr : ∀ j, p.slave.isr j = false

lemma picInit_eq (p : Cascade) : ∃ cascade cascade', picInit.foldl outb p =
    ⟨⟨fun _ => false,fun _ => false,0xfc,0x20,cascade,false,true,false,.ready⟩,
      ⟨fun _ => false,fun _ => false,0xff,0x28,cascade',false,true,false,.ready⟩⟩ :=
  ⟨_,_,rfl⟩

variable {p : Cascade}

lemma Settled.slave_requested (h : Settled p) : p.slave.requested = none := by
  apply requested_none
  intro i _
  rw [h.slaveImr]
  have hall : ∀ i : Fin 8, (0xff : BitVec 8).getLsbD i = true := by decide
  exact hall i

/-- The lines that are not masked. -/
lemma masked_iff {c : Chip} (h : c.imr = 0xfc) (i : Fin 8) :
    c.imr.getLsbD i = false ↔ i = 0 ∨ i = 1 := by
  rw [h]
  revert i
  decide

/-- What the processor gets while no interrupt is in service. -/
lemma Settled.acknowledge (h : Settled p) (hq : ∀ j, p.master.isr j = false) : p.acknowledge =
    if p.master.irr 0 then (0x20,{ p with master := p.master.service 0 })
    else if p.master.irr 1 then (0x21,{ p with master := p.master.service 1 })
    else (0x27,p) := by
  have hw : p.wired = { p.master with irr := Function.update p.master.irr 2 false } := by
    rw [Cascade.wired,h.slave_requested]
    rfl
  have hne {i : Fin 8} (hi : i ≠ 2) : p.wired.irr i = p.master.irr i := by
    rw [hw]
    exact Function.update_of_ne hi false p.master.irr
  have h0 : p.wired.irr 0 = p.master.irr 0 := hne (by decide)
  have h1 : p.wired.irr 1 = p.master.irr 1 := hne (by decide)
  have hm : ∀ i : Fin 8, p.wired.imr.getLsbD i = false ↔ i = 0 ∨ i = 1 := masked_iff h.masterImr
  have hv (i : Fin 8) : p.master.vector i = 0x20 ||| BitVec.ofNat 8 i := by
    rw [Chip.vector,h.masterBase]
    rfl
  have hr : p.wired.requested = if p.master.irr 0 then some 0
      else if p.master.irr 1 then some 1 else none := by
    split
    · rename_i hi
      exact requested_first hq (h0.trans hi) ((hm 0).mpr (.inl rfl))
        fun j hj => absurd hj (Fin.not_lt_zero j)
    · rename_i hi
      replace hi : p.wired.irr 0 = false := h0.trans (by simpa using hi)
      split
      · rename_i hi'
        refine requested_first hq (h1.trans hi') ((hm 1).mpr (.inr rfl)) fun j hj => .inl ?_
        obtain rfl : j = 0 := by omega
        exact hi
      · rename_i hi'
        replace hi' : p.wired.irr 1 = false := h1.trans (by simpa using hi')
        apply requested_none
        intro i hirr
        by_contra hmask
        rcases (hm i).mp (by simpa using hmask) with rfl | rfl
        · rw [hi] at hirr
          contradiction
        · rw [hi'] at hirr
          contradiction
  rw [Cascade.acknowledge,hr]
  by_cases hi : p.master.irr 0 = true
  · rw [if_pos hi,if_pos hi]
    simp [hv]
  · rw [if_neg hi,if_neg hi]
    by_cases hi' : p.master.irr 1 = true
    · rw [if_pos hi',if_pos hi']
      simp [hv]
    · rw [if_neg hi',if_neg hi']
      simp [hv]

end Writes

namespace PicSys
variable {T : Type} [DecidableEq T]

/-- What a stub has still to write. -/
def Rest (todo : List Outb) : Prop := todo = [] ∨ todo = [eoiMaster] ∨ todo = [eoiSlave,eoiMaster]

structure Inv (s : PicSys T) : Prop where
  settled : Settled s.pics
  rest : Rest s.todo
  flag : s.enabled = true → s.todo = []
  below : ∀ t, ∀ u ∈ s.below t, Rest u.todo ∧ (u.enabled = true → u.todo = [])
  /-- An interrupt is in service only before the stub has ended it. -/
  service : (∀ j, s.pics.master.isr j = false) ∨
    s.todo ≠ [] ∧ ∃ i, ∀ j, s.pics.master.isr j = true → j = i
  vectors : ∀ v ∈ s.delivered, v = 0x20 ∨ v = 0x21 ∨ v = 0x27
  timer : s.raised 0 = s.delivered.count 0x20+s.dropped 0+(s.pics.master.irr 0).toNat
  keyboard : s.raised 1 = s.delivered.count 0x21+s.dropped 1+(s.pics.master.irr 1).toNat

section Invariant
variable {s s' : PicSys T}

omit [DecidableEq T] in
/-- Nothing is in service where no stub is running. -/
lemma Inv.quiet (h : Inv s) (ht : s.todo = []) : ∀ j, s.pics.master.isr j = false :=
  h.service.resolve_right fun hs => hs.1 ht

/-- Code in the kernel starts with a stub, or with the entry of a system call. -/
lemma Inv.entered (h : Inv s) {code : List Instr} (hc : outs 0 code = [eoiSlave,eoiMaster] ∨
    outs 0 code = [] ∧ s.todo = []) : Inv (s.entered code) := by
  refine ⟨h.settled,?_,fun he => ?_,fun t u hu => ?_,?_,h.vectors,h.timer,h.keyboard⟩
  · rcases hc with hc | ⟨hc,-⟩
    · exact .inr (.inr hc)
    · exact .inl hc
  · simp [PicSys.entered] at he
  · by_cases ht : t = s.current
    · subst ht
      rw [entered_below_self] at hu
      rcases List.mem_cons.mp hu with rfl | hu
      · exact ⟨h.rest,h.flag⟩
      · exact h.below _ u hu
    · rw [entered_below_of_ne s code ht] at hu
      exact h.below t u hu
  · rcases hc with hc | ⟨-,ht⟩
    · rcases h.service with hq | ⟨-,hi⟩
      · exact .inl hq
      · refine .inr ⟨?_,hi⟩
        change outs 0 code ≠ []
        rw [hc]
        exact List.cons_ne_nil _ _
    · exact .inl (h.quiet ht)

omit [DecidableEq T] in
/-- An end of interrupt at the slave has nothing to end. -/
lemma outb_eoiSlave {p : Cascade} (h : Settled p) : outb p eoiSlave = p := by
  have ho : outb p eoiSlave = { p with slave := p.slave.endOfInterrupt } := rfl
  rw [ho,endOfInterrupt_none h.slaveIsr]

omit [DecidableEq T] in
lemma outb_eoiMaster (p : Cascade) :
    outb p eoiMaster = { p with master := p.master.endOfInterrupt } :=
  rfl

omit [DecidableEq T] in
lemma raise_count {r : Fin 8 → ℕ} {irr : Fin 8 → Bool} {n : ℕ} {k : Fin 8}
    (h : r k = n+(irr k).toNat) (i : Fin 8) :
    Function.update r i (r i+if irr i then 0 else 1) k =
      n+(Function.update irr i true k).toNat := by
  by_cases hk : k = i
  · subst hk
    rw [Function.update_self,Function.update_self,h]
    cases irr k <;> simp
  · rw [Function.update_of_ne hk,Function.update_of_ne hk,h]

omit [DecidableEq T] in
lemma drop_count {d : Fin 8 → ℕ} {irr : Fin 8 → Bool} {n m : ℕ} {k : Fin 8}
    (h : m = n+d k+(irr k).toNat) (i : Fin 8) :
    m = n+Function.update d i (d i+if irr i then 1 else 0) k+
      (Function.update irr i false k).toNat := by
  by_cases hk : k = i
  · subst hk
    rw [Function.update_self,Function.update_self,h]
    cases irr k with
    | false => rfl
    | true => exact Nat.add_assoc _ _ _
  · rw [Function.update_of_ne hk,Function.update_of_ne hk,h]

/-- The stub of an interrupt starts with at most this interrupt in service. -/
lemma Inv.acknowledged (h : Inv s) (kind : VectorKind) {v : BitVec 8} {p : Cascade}
    (hack : s.pics.acknowledge = (v,p)) (hset : Settled p)
    (hser : ∃ i, ∀ j, p.master.isr j = true → j = i) (hv : v = 0x20 ∨ v = 0x21 ∨ v = 0x27)
    (htimer : s.raised 0 = (s.delivered++[v]).count 0x20+s.dropped 0+(p.master.irr 0).toNat)
    (hkeyboard : s.raised 1 = (s.delivered++[v]).count 0x21+s.dropped 1+(p.master.irr 1).toNat) :
    Inv { s.entered (intrEntryPushes s.pics.acknowledge.1 kind) with
      pics := s.pics.acknowledge.2
      delivered := s.delivered++[s.pics.acknowledge.1] } := by
  have ho := outs_intrEntryPushes v kind
  have hent := h.entered (.inl ho)
  rw [hack]
  refine ⟨hset,hent.rest,hent.flag,hent.below,.inr ⟨?_,hser⟩,fun w hw => ?_,htimer,hkeyboard⟩
  · change outs 0 (intrEntryPushes v kind) ≠ []
    rw [ho]
    exact List.cons_ne_nil _ _
  · rcases List.mem_append.mp hw with hw | hw
    · exact h.vectors w hw
    · rw [List.mem_singleton.mp hw]
      exact hv

/-- The processor takes an interrupt. -/
lemma Inv.interrupt (h : Inv s) (kind : VectorKind) (he : s.enabled = true) :
    Inv { s.entered (intrEntryPushes s.pics.acknowledge.1 kind) with
      pics := s.pics.acknowledge.2
      delivered := s.delivered++[s.pics.acknowledge.1] } := by
  have hq := h.quiet (h.flag he)
  have hack := h.settled.acknowledge hq
  have hset (k : Fin 8) : Settled { s.pics with master := s.pics.master.service k } :=
    ⟨h.settled.masterImr,h.settled.masterBase,h.settled.masterEoi,h.settled.slaveImr,
      h.settled.slaveIsr⟩
  have hser (k : Fin 8) : ∃ i, ∀ j, (s.pics.master.service k).isr j = true → j = i := by
    refine ⟨k,fun j hj => ?_⟩
    by_contra hne
    have hs : (s.pics.master.service k).isr j = s.pics.master.isr j := by
      rw [Chip.service,h.settled.masterEoi]
      exact Function.update_of_ne hne true s.pics.master.isr
    rw [hs,hq] at hj
    contradiction
  have hgone (k : Fin 8) : (s.pics.master.service k).irr k = false := by
    rw [Chip.service]
    exact Function.update_self k false s.pics.master.irr
  have hstays {k l : Fin 8} (hl : l ≠ k) :
      (s.pics.master.service k).irr l = s.pics.master.irr l := by
    rw [Chip.service]
    exact Function.update_of_ne hl false s.pics.master.irr
  have ht := h.timer
  have hk := h.keyboard
  by_cases h0 : s.pics.master.irr 0 = true
  · rw [if_pos h0] at hack
    refine h.acknowledged kind hack (hset 0) (hser 0) (.inl rfl) ?_ ?_
    · rw [hgone,ht,h0,List.count_append]
      simp only [List.count_singleton_self,Bool.toNat_true,Bool.toNat_false]
      omega
    · rw [hstays (by decide),hk,List.count_append]
      simp
  · rw [if_neg h0] at hack
    by_cases h1 : s.pics.master.irr 1 = true
    · rw [if_pos h1] at hack
      refine h.acknowledged kind hack (hset 1) (hser 1) (.inr (.inl rfl)) ?_ ?_
      · rw [hstays (by decide),ht,List.count_append]
        simp
      · rw [hgone,hk,h1,List.count_append]
        simp only [List.count_singleton_self,Bool.toNat_true,Bool.toNat_false]
        omega
    · rw [if_neg h1] at hack
      refine h.acknowledged kind hack h.settled ⟨0,fun j hj => ?_⟩ (.inr (.inr rfl)) ?_ ?_
      · rw [hq] at hj
        contradiction
      · rw [ht,List.count_append]
        simp
      · rw [hk,List.count_append]
        simp

theorem Step.inv (hs : Step s s') (h : Inv s) : Inv s' := by
  cases hs with
  | raise i =>
    exact ⟨⟨h.settled.masterImr,h.settled.masterBase,h.settled.masterEoi,h.settled.slaveImr,
      h.settled.slaveIsr⟩,h.rest,h.flag,h.below,h.service,h.vectors,raise_count h.timer i,
      raise_count h.keyboard i⟩
  | drop i =>
    exact ⟨⟨h.settled.masterImr,h.settled.masterBase,h.settled.masterEoi,h.settled.slaveImr,
      h.settled.slaveIsr⟩,h.rest,h.flag,h.below,h.service,h.vectors,drop_count h.timer i,
      drop_count h.keyboard i⟩
  | slaveLine irr =>
    exact ⟨⟨h.settled.masterImr,h.settled.masterBase,h.settled.masterEoi,h.settled.slaveImr,
      h.settled.slaveIsr⟩,h.rest,h.flag,h.below,h.service,h.vectors,h.timer,h.keyboard⟩
  | interrupt kind he => exact h.interrupt kind he
  | exception n kind => exact h.entered (.inl (outs_intrEntryPushes n kind))
  | syscall ht => exact h.entered (.inr ⟨outs_syscallPushes,ht⟩)
  | write o rest ht =>
    have hflag : s.enabled = true → rest = [] := by
      intro he
      rw [h.flag he] at ht
      contradiction
    rcases h.rest with hr | hr | hr
    · rw [hr] at ht
      contradiction
    · obtain ⟨rfl,rfl⟩ := List.cons.inj (ht.symm.trans hr)
      have hp := outb_eoiMaster s.pics
      rw [endOfInterrupt_eq] at hp
      rw [hp]
      refine ⟨⟨h.settled.masterImr,h.settled.masterBase,h.settled.masterEoi,h.settled.slaveImr,
        h.settled.slaveIsr⟩,.inl rfl,hflag,h.below,.inl ?_,h.vectors,h.timer,h.keyboard⟩
      rcases h.service with hq | ⟨-,i,hi⟩
      · rw [endOfInterrupt_none hq]
        exact hq
      · exact endOfInterrupt_only hi
    · obtain ⟨rfl,rfl⟩ := List.cons.inj (ht.symm.trans hr)
      rw [outb_eoiSlave h.settled]
      exact ⟨h.settled,.inr (.inl rfl),hflag,h.below,
        h.service.imp_right fun hs => ⟨List.cons_ne_nil _ _,hs.2⟩,h.vectors,h.timer,h.keyboard⟩
  | setFlag b ht =>
    exact ⟨h.settled,h.rest,fun _ => ht,h.below,h.service,h.vectors,h.timer,h.keyboard⟩
  | iret u us hb ht =>
    have hu := h.below s.current u (by rw [hb]; exact List.mem_cons_self)
    refine ⟨h.settled,hu.1,hu.2,fun t v hv => ?_,.inl (h.quiet ht),h.vectors,h.timer,h.keyboard⟩
    by_cases hc : t = s.current
    · subst hc
      have hv' : v ∈ Function.update s.below s.current us s.current := hv
      rw [Function.update_self] at hv'
      exact h.below _ v (by rw [hb]; exact List.mem_cons_of_mem _ hv')
    · have hv' : v ∈ Function.update s.below s.current us t := hv
      rw [Function.update_of_ne hc] at hv'
      exact h.below t v hv'
  | switch t ht hd =>
    exact ⟨h.settled,h.rest,h.flag,h.below,h.service,h.vectors,h.timer,h.keyboard⟩

theorem Reachable.inv (h : Reachable s) : Inv s := by
  obtain ⟨p,mainThread,h⟩ := h
  induction h with
  | refl =>
    obtain ⟨c,c',hp⟩ := picInit_eq p
    rw [init,hp]
    exact ⟨⟨rfl,rfl,rfl,rfl,fun _ => rfl⟩,.inl rfl,fun _ => rfl,
      fun _ _ hu => absurd hu List.not_mem_nil,.inl fun _ => rfl,
      fun _ hv => absurd hv List.not_mem_nil,rfl,rfl⟩
  | tail _ hs ih => exact hs.inv ih

/-- Whatever the devices do, and however threads are interrupted and switched: from the controllers
come the timer, the keyboard and interrupts made up for requests taken back. None of their requests
gets lost or comes twice, and none is held back where the interrupt flag is set. -/
theorem reachable_delivers (h : Reachable s) : Delivers s := by
  have hi := h.inv
  refine ⟨hi.vectors,fun he j => ?_,fun he => ?_,hi.timer,hi.keyboard⟩
  · exact ⟨hi.quiet (hi.flag he) j,hi.settled.slaveIsr j⟩
  rw [hi.settled.acknowledge (hi.quiet (hi.flag he))]
  split
  · rfl
  · split
    · rfl
    · rfl

end Invariant

/-- Two controllers before pic_init, with everything requested and in service. -/
def busyChip : Chip := ⟨fun _ => true,fun _ => true,0,0,0,true,false,true,.ready⟩

/-- The timer comes before the keyboard. -/
theorem reachable_delivers_both : ∃ s : PicSys Unit, Reachable s ∧ s.pics.master.irr 0 = true ∧
    s.pics.master.irr 1 = true ∧ s.pics.acknowledge.1 = 0x20 := by
  have h1 := Relation.ReflTransGen.single (Step.raise (init ⟨busyChip,busyChip⟩ ()) 0)
  have h2 : Reachable _ :=
    ⟨⟨busyChip,busyChip⟩,(),(h1.tail (.raise _ 1)).tail (.setFlag _ true rfl)⟩
  have h3 := (reachable_delivers h2).next rfl
  exact ⟨_,h2,rfl,rfl,h3.trans (if_pos rfl)⟩

end PicSys
end OsKernel

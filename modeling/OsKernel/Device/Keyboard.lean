import OsKernel.Device.Ioqueue
import OsKernel.Library.Script

/-! The keyboard handler and its queue, and what any sequence of scancodes, writes and reads
makes of the queue. -/
namespace OsKernel
open Ioqueue

def esc : Char := '\x1b'
def backspace : Char := '\x08'
def charInvisible : Char := '\x00'

/-- The two columns of keymap, indexed by make code: without and with shift. -/
def keymapPlain : List Char :=
  [charInvisible,esc]++"1234567890-=".toList++[backspace]++"\tqwertyuiop[]\r".toList++
    [charInvisible]++"asdfghjkl;'`".toList++[charInvisible]++"\\zxcvbnm,./".toList++
    [charInvisible,'*',charInvisible,' ',charInvisible]

def keymapShift : List Char :=
  [charInvisible,esc]++"!@#$%^&*()_+".toList++[backspace]++"\tQWERTYUIOP\x7b\x7d\r".toList++
    [charInvisible]++"ASDFGHJKL:\"~".toList++[charInvisible]++"|ZXCVBNM<>?".toList++
    [charInvisible,'*',charInvisible,' ',charInvisible]

def keymap (index : ℕ) (shift : Bool) : UInt8 :=
  ((if shift then keymapShift else keymapPlain).getD index charInvisible).toUInt8

example : keymapPlain.length = 0x3b ∧ keymapShift.length = 0x3b := by decide

def shiftLMake : ℕ := 0x2a
def shiftRMake : ℕ := 0x36
def altLMake : ℕ := 0x38
def altRMake : ℕ := 0xe038
def ctrlLMake : ℕ := 0x1d
def ctrlRMake : ℕ := 0xe01d
def capsLockMake : ℕ := 0x3a

/-- The modifier keys that the handler remembers. -/
structure Keyboard where
  ctrlStatus : Bool
  shiftStatus : Bool
  altStatus : Bool
  capsLockStatus : Bool
  extScancode : Bool
  deriving DecidableEq, Repr

namespace Keyboard

/-- The key goes up. -/
def breakCode (k : Keyboard) (makeCode : ℕ) : Keyboard :=
  if makeCode = ctrlLMake ∨ makeCode = ctrlRMake then { k with ctrlStatus := false }
  else if makeCode = shiftLMake ∨ makeCode = shiftRMake then { k with shiftStatus := false }
  else if makeCode = altLMake ∨ makeCode = altRMake then { k with altStatus := false }
  else k

/-- A key without a character goes down. -/
def modifier (k : Keyboard) (scancode : ℕ) : Keyboard :=
  if scancode = ctrlLMake ∨ scancode = ctrlRMake then { k with ctrlStatus := true }
  else if scancode = shiftLMake ∨ scancode = shiftRMake then { k with shiftStatus := true }
  else if scancode = altLMake ∨ scancode = altRMake then { k with altStatus := true }
  else if scancode = capsLockMake then { k with capsLockStatus := !k.capsLockStatus }
  else k

/-- Caps lock does not reach digits and punctuation. -/
def shift (k : Keyboard) (scancode : ℕ) : Bool :=
  if scancode < 0x0e ∨ scancode ∈ [0x29,0x1a,0x1b,0x2b,0x27,0x28,0x33,0x34,0x35] then
    k.shiftStatus
  else if k.shiftStatus && k.capsLockStatus then false
  else k.shiftStatus || k.capsLockStatus

end Keyboard

/-- The kernel with the keyboard queue. The two lists record the bytes that the completed calls of
ioq_putchar have been given and those that the calls of ioq_getchar have returned; the code does
not read them. -/
structure KeyboardSys where
  sched : Sched
  ioq : Ioqueue
  kbd : Keyboard
  puts : List UInt8
  gets : List UInt8

namespace KeyboardSys

/-- A call of ioq_putchar. -/
def putchar (s : KeyboardSys) (chr : UInt8) : Except Panic KeyboardSys := do
  let (sched,ioq) ← ioqPutchar s.sched s.ioq chr
  return { s with sched := sched, ioq := ioq, puts := s.puts++[chr] }

/-- A call of ioq_getchar, whose caller gets the byte. -/
def getchar (s : KeyboardSys) : Except Panic KeyboardSys := do
  let (byte,sched,ioq) ← ioqGetchar s.sched s.ioq
  return { s with sched := sched, ioq := ioq, gets := s.gets++[byte] }

/-- The part of the handler that has found a character. -/
def enqueue (s : KeyboardSys) (curChar : UInt8) : Except Panic KeyboardSys := do
  if ← ioqFull s.sched s.ioq then
    return s
  else
    s.putchar curChar

/-- The handler on the byte that it reads from the port. -/
def intrKeyboardHandler (s : KeyboardSys) (data : UInt8) : Except Panic KeyboardSys :=
  let scancode := data.toNat
  if scancode = 0xe0 then .ok { s with kbd := { s.kbd with extScancode := true } }
  else if scancode &&& 0x0080 ≠ 0 then
    .ok { s with kbd := s.kbd.breakCode (scancode &&& 0xff7f) }
  else if 0x00 < scancode ∧ scancode < 0x3b ∨ scancode = altRMake ∨ scancode = ctrlRMake then
    let curChar := keymap (scancode &&& 0x00ff) (s.kbd.shift scancode)
    if curChar ≠ 0 then s.enqueue curChar
    else .ok { s with kbd := s.kbd.modifier scancode }
  else .ok s

inductive Op
  | put (chr : UInt8)
  | get
  | key (data : UInt8)
  deriving DecidableEq, Repr

def exec (s : KeyboardSys) : Op → Except Panic KeyboardSys
  | .put chr => s.putchar chr
  | .get => s.getchar
  | .key data => s.intrKeyboardHandler data

/-- A write waits for room and a read for a byte; a key may be pressed at any time. -/
def Enabled (s : KeyboardSys) : Op → Prop
  | .put _ => ioqFull s.sched s.ioq = .ok false
  | .get => ioqEmpty s.sched s.ioq = .ok false
  | .key _ => True

def Step (s s' : KeyboardSys) : Prop := ∃ op, s.Enabled op ∧ s.exec op = .ok s'

/-- The state after init_ioqueue. -/
def init (sched : Sched) (buf : ℕ → UInt8) (kbd : Keyboard) : KeyboardSys :=
  ⟨sched,initIoqueue buf,kbd,[],[]⟩

/-- The states that some run with interrupts off reaches. -/
def Reachable (s : KeyboardSys) : Prop :=
  ∃ sched buf kbd, sched.intr = false ∧ Relation.ReflTransGen Step (init sched buf kbd) s

/-- Nobody waits, and the queue holds what has been put and not got. -/
structure Inv (s : KeyboardSys) : Prop where
  intr : s.sched.intr = false
  fifo : s.ioq.Fifo s.puts s.gets
  consumer : s.ioq.consumer = none
  producer : s.ioq.producer = none

variable {s : KeyboardSys}

theorem init_inv {sched : Sched} (buf : ℕ → UInt8) (kbd : Keyboard) (hi : sched.intr = false) :
    (init sched buf kbd).Inv :=
  ⟨hi,initIoqueue_fifo buf,rfl,rfl⟩

/-- What a call of ioq_putchar does where nobody waits. -/
theorem Inv.putchar_eq (h : s.Inv) (hfull : nextPos s.ioq.head ≠ s.ioq.tail) (chr : UInt8) :
    s.putchar chr = .ok { s with
      ioq := { s.ioq with
        buf := Function.update s.ioq.buf s.ioq.head chr
        head := nextPos s.ioq.head }
      puts := s.puts++[chr] } := by
  have heq : ioqPutchar s.sched s.ioq chr = .ok (s.sched,{ s.ioq with
      buf := Function.update s.ioq.buf s.ioq.head chr
      head := nextPos s.ioq.head }) := by
    rw [ioqPutchar,assert_of h.intr,bind_of_ok rfl,ioqFull_eq h.intr,bind_of_ok rfl]
    simp [hfull,storeByte,wakeIfWaiting,h.consumer,bind,Except.bind,pure,Except.pure]
  rw [putchar,heq]
  rfl

/-- What a call of ioq_getchar does where nobody waits. -/
theorem Inv.getchar_eq (h : s.Inv) (hempty : s.ioq.head ≠ s.ioq.tail) :
    s.getchar = .ok { s with
      ioq := { s.ioq with tail := nextPos s.ioq.tail }
      gets := s.gets++[s.ioq.buf s.ioq.tail] } := by
  have heq : ioqGetchar s.sched s.ioq = .ok (s.ioq.buf s.ioq.tail,s.sched,{ s.ioq with
      tail := nextPos s.ioq.tail }) := by
    rw [ioqGetchar,assert_of h.intr,bind_of_ok rfl,ioqEmpty_eq h.intr,bind_of_ok rfl]
    simp [hempty,takeByte,wakeIfWaiting,h.producer,bind,Except.bind,pure,Except.pure]
  rw [getchar,heq]
  rfl

/-- A byte that is put comes after all others. -/
theorem Inv.put (h : s.Inv) (hfull : nextPos s.ioq.head ≠ s.ioq.tail) (chr : UInt8) :
    Outcome (s.putchar chr) (fun s' => s'.Inv ∧ s'.puts = s.puts++[chr] ∧ s'.gets = s.gets)
      (fun _ => False) := by
  rw [h.putchar_eq hfull]
  exact ⟨⟨h.intr,h.fifo.store hfull chr rfl,h.consumer,h.producer⟩,rfl,rfl⟩

/-- The byte that is returned is the oldest one. -/
theorem Inv.get (h : s.Inv) (hempty : s.ioq.head ≠ s.ioq.tail) :
    Outcome s.getchar (fun s' => s'.Inv ∧ s'.puts = s.puts ∧ s'.kbd = s.kbd)
      (fun _ => False) := by
  rw [h.getchar_eq hempty]
  exact ⟨⟨h.intr,h.fifo.take hempty rfl,h.consumer,h.producer⟩,rfl,rfl⟩

/-- The handler puts at most one byte, and only where there is room. -/
theorem Inv.key (h : s.Inv) (data : UInt8) :
    Outcome (s.exec (.key data)) Inv (fun _ => False) := by
  have hkbd : ∀ kbd, Inv { s with kbd := kbd } := fun _ => ⟨h.intr,h.fifo,h.consumer,h.producer⟩
  simp only [exec,intrKeyboardHandler]
  split
  · exact hkbd _
  split
  · exact hkbd _
  split
  · split
    · rw [enqueue,ioqFull_eq h.intr,bind_of_ok rfl]
      by_cases hfull : nextPos s.ioq.head = s.ioq.tail
      · simpa [hfull] using h
      · simp only [hfull,decide_false,Bool.false_eq_true,if_false]
        exact (h.put hfull _).mono (fun _ ha => ha.1) fun _ he => he
    · exact hkbd _
  · exact h

theorem Inv.exec (h : s.Inv) {op : Op} (hen : s.Enabled op) :
    Outcome (s.exec op) Inv (fun _ => False) := by
  cases op with
  | put chr =>
    rw [Enabled,ioqFull_eq h.intr] at hen
    exact (h.put (by simpa using hen) chr).mono (fun _ ha => ha.1) fun _ he => he
  | get =>
    rw [Enabled,ioqEmpty_eq h.intr] at hen
    exact (h.get (by simpa using hen)).mono (fun _ ha => ha.1) fun _ he => he
  | key data => exact h.key data

theorem Reachable.inv (h : s.Reachable) : s.Inv := by
  obtain ⟨sched,buf,kbd,hi,hrun⟩ := h
  induction hrun with
  | refl => exact init_inv buf kbd hi
  | tail _ hstep ih =>
    obtain ⟨op,hen,hop⟩ := hstep
    exact (ih.exec hen).of_ok hop

/-- The queue is a bounded FIFO queue after any number of wrap-arounds: the bytes that have been
returned are the first ones of those that have been put. A write where there is room, a read where
there is a byte and a key at any time all return. -/
theorem reachable_fifo (h : s.Reachable) :
    s.ioq.head < bufsize ∧ s.ioq.tail < bufsize ∧
    ioqEmpty s.sched s.ioq = .ok (decide (s.puts = s.gets)) ∧
    ioqFull s.sched s.ioq = .ok (decide (s.puts.length = s.gets.length+(bufsize-1))) ∧
    s.gets <+: s.puts ∧
    ∀ op, s.Enabled op → ∃ s', s.exec op = .ok s' := by
  have hinv := h.inv
  obtain ⟨pending,hr,hp⟩ := hinv.fifo
  refine ⟨hr.head_lt,hr.tail_lt,?_,?_,⟨pending,hp.symm⟩,?_⟩
  · rw [ioqEmpty_eq hinv.intr,decide_eq_decide.mpr hinv.fifo.empty_iff]
  · rw [ioqFull_eq hinv.intr,decide_eq_decide.mpr hinv.fifo.full_iff]
  · intro op hen
    cases he : s.exec op with
    | ok s' => exact ⟨s',rfl⟩
    | error e => exact ((hinv.exec hen).of_error he).elim

def untouched : KeyboardSys :=
  init (Sched.threadInit 1 fun _ => 1) (fun _ => 0) ⟨false,false,false,false,false⟩

instance (s : KeyboardSys) : DecidablePred s.Enabled
  | .put _ => inferInstanceAs (Decidable (_ = _))
  | .get => inferInstanceAs (Decidable (_ = _))
  | .key _ => inferInstanceAs (Decidable True)

/-- The state after an operation, if it is enabled and returns. -/
def perform (s : KeyboardSys) (op : Op) : Option KeyboardSys :=
  if s.Enabled op then (s.exec op).toOption else none

theorem perform_step {s s' : KeyboardSys} {op : Op} (h : s.perform op = some s') : s.Step s' := by
  obtain ⟨hen,h⟩ := Option.ite_none_right_eq_some.mp h
  exact ⟨op,hen,eq_ok_of_toOption h⟩

/-- The key a goes down, somebody puts a b, and the first byte is read. -/
theorem reachable_fifo_typed : ∃ s : KeyboardSys, s.puts = [97,98] ∧ s.gets = [97] ∧
    s.gets <+: s.puts ∧ ioqEmpty s.sched s.ioq = .ok false := by
  have hplay : ∃ s, Script.play perform [.key 0x1e,.put 98,.get] untouched = some s ∧
      s.puts = [97,98] ∧ s.gets = [97] := by decide +kernel
  obtain ⟨s,hs,hputs,hgets⟩ := hplay
  have hrun := Script.play_steps hs perform_step
  obtain ⟨-,-,hempty,-,hpre,-⟩ := reachable_fifo ⟨_,_,_,rfl,hrun⟩
  refine ⟨s,hputs,hgets,hpre,?_⟩
  rw [hempty,hputs,hgets]
  rfl

end KeyboardSys
end OsKernel

import OsKernel.Device.Keyboard

/-! The modifier keys. Their flags are compared with the keys that are down, over all sequences
of key events: two keys share each flag, and the flag of the prefix byte is never reset. -/
namespace OsKernel

/-- The keys that are remembered. -/
inductive ModKey
  | shiftL | shiftR | ctrlL | ctrlR | altL | altR
  deriving DecidableEq, Repr

namespace ModKey

/-- The make code without its prefix. -/
def makeCode : ModKey → UInt8
  | .shiftL => 0x2a
  | .shiftR => 0x36
  | .ctrlL | .ctrlR => 0x1d
  | .altL | .altR => 0x38

/-- The key is sent with the prefix byte. -/
def extended : ModKey → Bool
  | .ctrlR | .altR => true
  | _ => false

/-- The key that shares the flag. -/
def twin : ModKey → ModKey
  | .shiftL => .shiftR
  | .shiftR => .shiftL
  | .ctrlL => .ctrlR
  | .ctrlR => .ctrlL
  | .altL => .altR
  | .altR => .altL

end ModKey

/-- What happens at the keyboard. The key Pause sends the codes of a control key after the byte
0xe1. -/
inductive KeyEvent
  | press (key : ModKey)
  | release (key : ModKey)
  | other (code : UInt8) (h : code ≠ 0xe0 ∧ code &&& 0x7f ≠ 0x2a ∧ code &&& 0x7f ≠ 0x36 ∧
      code &&& 0x7f ≠ 0x1d ∧ code &&& 0x7f ≠ 0x38)
  | otherExtended (code : UInt8)
  | pause

/-- The keys that are down. -/
abbrev Keys : Type := ModKey → Bool

namespace KeyEvent

def withPrefix (extended : Bool) (code : UInt8) : List UInt8 :=
  if extended then [0xe0,code] else [code]

/-- The bytes that the keyboard sends. -/
def bytes : KeyEvent → List UInt8
  | .press key => withPrefix key.extended key.makeCode
  | .release key => withPrefix key.extended (key.makeCode ||| 0x80)
  | .other code _ => [code]
  | .otherExtended code => [0xe0,code]
  | .pause => [0xe1,0x1d,0x45,0xe1,0x9d,0xc5]

def keys (e : KeyEvent) (down : Keys) : Keys :=
  match e with
  | .press key => Function.update down key true
  | .release key => Function.update down key false
  | _ => down

/-- Only a key that is down goes up. A key that is down may send its make code again. -/
def Possible (e : KeyEvent) (down : Keys) : Prop :=
  match e with
  | .release key => down key = true
  | _ => True

/-- The event sends no prefix byte, no modifier goes up while the other one of its pair is down,
and Pause is not pressed while a control key is down. -/
def Clean (e : KeyEvent) (down : Keys) : Prop :=
  match e with
  | .press key => key.extended = false
  | .release key => key.extended = false ∧ down key.twin = false
  | .other _ _ => True
  | .otherExtended _ => False
  | .pause => down .ctrlL = false ∧ down .ctrlR = false

end KeyEvent

/-- The keys that are down after a sequence of events. -/
def downs (es : List KeyEvent) : Keys := es.foldl (fun down e => e.keys down) fun _ => false

/-- Every key is alternately pressed and released. -/
def WellFormed (es : List KeyEvent) : Prop := ∀ pre e, pre++[e] <+: es → e.Possible (downs pre)

/-- Every event is clean when it happens. -/
def AllClean (es : List KeyEvent) : Prop := ∀ pre e, pre++[e] <+: es → e.Clean (downs pre)

namespace Keyboard

/-- The flags follow the keys. -/
structure Follows (k : Keyboard) (down : Keys) : Prop where
  shift : k.shiftStatus = (down .shiftL || down .shiftR)
  ctrl : k.ctrlStatus = (down .ctrlL || down .ctrlR)
  alt : k.altStatus = (down .altL || down .altR)
  ext : k.extScancode = false

/-- What the handler does to the flags. -/
def handle (k : Keyboard) (data : UInt8) : Keyboard :=
  let scancode := data.toNat
  if scancode = 0xe0 then { k with extScancode := true }
  else if scancode &&& 0x0080 ≠ 0 then k.breakCode (scancode &&& 0xff7f)
  else if 0x00 < scancode ∧ scancode < 0x3b ∨ scancode = altRMake ∨ scancode = ctrlRMake then
    if keymap (scancode &&& 0x00ff) (k.shift scancode) ≠ 0 then k else k.modifier scancode
  else k

def handleAll (k : Keyboard) (bs : List UInt8) : Keyboard := bs.foldl handle k

def initial : Keyboard := ⟨false,false,false,false,false⟩

/-- The flags after a sequence of events. -/
def after (es : List KeyEvent) : Keyboard := initial.handleAll (es.flatMap KeyEvent.bytes)

section Handle
variable (k : Keyboard) {down : Keys} {code : UInt8}

/-- The flag of a key gets a value. -/
def setFlag (key : ModKey) (value : Bool) : Keyboard :=
  match key with
  | .shiftL | .shiftR => { k with shiftStatus := value }
  | .ctrlL | .ctrlR => { k with ctrlStatus := value }
  | .altL | .altR => { k with altStatus := value }

theorem handleAll_press (key : ModKey) : k.handleAll (KeyEvent.press key).bytes =
    { k.setFlag key true with extScancode := k.extScancode || key.extended } := by
  obtain ⟨ctrl,shift,alt,caps,ext⟩ := k
  revert ctrl shift alt caps ext
  cases key <;> decide

theorem handleAll_release (key : ModKey) : k.handleAll (KeyEvent.release key).bytes =
    { k.setFlag key false with extScancode := k.extScancode || key.extended } := by
  obtain ⟨ctrl,shift,alt,caps,ext⟩ := k
  revert ctrl shift alt caps ext
  cases key <;> decide

theorem handleAll_pause : k.handleAll KeyEvent.pause.bytes = { k with ctrlStatus := false } := by
  obtain ⟨ctrl,shift,alt,caps,ext⟩ := k
  revert ctrl shift alt caps ext
  decide

/-- The codes of the other keys, with and without the bit of a break code. -/
theorem toNat_ne_of_and_ne (m : UInt8) (hm : m.toNat < 0x80) (h : code &&& 0x7f ≠ m) :
    code.toNat ≠ m.toNat ∧ code.toNat &&& 0xff7f ≠ m.toNat := by
  have hlt : code.toNat < 2^8 := code.toNat_lt
  have hand : code.toNat &&& 0xff7f = (code &&& 0x7f).toNat := by
    have h₁ : code.toNat &&& 0xff = code.toNat := by
      rw [Nat.and_two_pow_sub_one_eq_mod code.toNat 8,Nat.mod_eq_of_lt hlt]
    have h₂ : code.toNat &&& 0xff7f = code.toNat &&& 0xff &&& 0xff7f := by rw [h₁]
    rw [h₂,Nat.and_assoc,UInt8.toNat_and]
    rfl
  refine ⟨fun he => h ?_,fun he => h ?_⟩
  · apply UInt8.toNat.inj
    have h₁ : m.toNat &&& 0x7f = m.toNat := by
      rw [Nat.and_two_pow_sub_one_eq_mod m.toNat 7,Nat.mod_eq_of_lt hm]
    rw [UInt8.toNat_and,he]
    exact h₁
  · exact UInt8.toNat.inj (hand ▸ he)

/-- A key without a flag moves at most caps lock. -/
theorem handle_other (h : code ≠ 0xe0 ∧ code &&& 0x7f ≠ 0x2a ∧ code &&& 0x7f ≠ 0x36 ∧
    code &&& 0x7f ≠ 0x1d ∧ code &&& 0x7f ≠ 0x38) :
    ∃ caps, k.handle code = { k with capsLockStatus := caps } := by
  obtain ⟨hext,hsl,hsr,hctrl,halt⟩ := h
  have hlt : code.toNat < 2^8 := code.toNat_lt
  have hle : code.toNat &&& 0xff7f ≤ code.toNat := Nat.and_le_left
  have hext : code.toNat ≠ 0xe0 := fun he => hext (UInt8.toNat.inj he)
  obtain ⟨hsl₁,hsl₂⟩ := toNat_ne_of_and_ne 0x2a (by decide) hsl
  obtain ⟨hsr₁,hsr₂⟩ := toNat_ne_of_and_ne 0x36 (by decide) hsr
  obtain ⟨hctrl₁,hctrl₂⟩ := toNat_ne_of_and_ne 0x1d (by decide) hctrl
  obtain ⟨halt₁,halt₂⟩ := toNat_ne_of_and_ne 0x38 (by decide) halt
  have hbreak : k.breakCode (code.toNat &&& 0xff7f) = k := by
    have h₁ : ¬ (code.toNat &&& 0xff7f = ctrlLMake ∨ code.toNat &&& 0xff7f = ctrlRMake) :=
      not_or.mpr ⟨hctrl₂,by unfold ctrlRMake; omega⟩
    have h₂ : ¬ (code.toNat &&& 0xff7f = shiftLMake ∨ code.toNat &&& 0xff7f = shiftRMake) :=
      not_or.mpr ⟨hsl₂,hsr₂⟩
    have h₃ : ¬ (code.toNat &&& 0xff7f = altLMake ∨ code.toNat &&& 0xff7f = altRMake) :=
      not_or.mpr ⟨halt₂,by unfold altRMake; omega⟩
    rw [breakCode,if_neg h₁,if_neg h₂,if_neg h₃]
  have hmodifier : ∃ caps, k.modifier code.toNat = { k with capsLockStatus := caps } := by
    have h₁ : ¬ (code.toNat = ctrlLMake ∨ code.toNat = ctrlRMake) :=
      not_or.mpr ⟨hctrl₁,by unfold ctrlRMake; omega⟩
    have h₂ : ¬ (code.toNat = shiftLMake ∨ code.toNat = shiftRMake) := not_or.mpr ⟨hsl₁,hsr₁⟩
    have h₃ : ¬ (code.toNat = altLMake ∨ code.toNat = altRMake) :=
      not_or.mpr ⟨halt₁,by unfold altRMake; omega⟩
    rw [modifier,if_neg h₁,if_neg h₂,if_neg h₃]
    split
    · exact ⟨_,rfl⟩
    · exact ⟨k.capsLockStatus,rfl⟩
  simp only [handle,if_neg hext,hbreak]
  split
  · exact ⟨k.capsLockStatus,rfl⟩
  split
  · split
    · exact ⟨k.capsLockStatus,rfl⟩
    · exact hmodifier
  · exact ⟨k.capsLockStatus,rfl⟩

/-- Nothing resets the flag of the prefix byte. -/
theorem handle_extScancode (h : k.extScancode = true) : (k.handle code).extScancode = true := by
  simp only [handle,breakCode,modifier]
  split_ifs <;> first | rfl | exact h

end Handle

section Follow
variable {k : Keyboard} {down : Keys}

/-- The flag of a key. -/
def flag (k : Keyboard) : ModKey → Bool
  | .shiftL | .shiftR => k.shiftStatus
  | .ctrlL | .ctrlR => k.ctrlStatus
  | .altL | .altR => k.altStatus

theorem flag_setFlag (key key' : ModKey) (value : Bool) : (k.setFlag key value).flag key' =
    if key' = key ∨ key' = key.twin then value else k.flag key' := by
  cases key <;> cases key' <;> rfl

theorem follows_iff : k.Follows down ↔
    (∀ key, k.flag key = (down key || down key.twin)) ∧ k.extScancode = false := by
  constructor
  · intro h
    refine ⟨fun key => ?_,h.ext⟩
    cases key
    · exact h.shift
    · exact h.shift.trans (Bool.or_comm _ _)
    · exact h.ctrl
    · exact h.ctrl.trans (Bool.or_comm _ _)
    · exact h.alt
    · exact h.alt.trans (Bool.or_comm _ _)
  · rintro ⟨h,hext⟩
    exact ⟨h .shiftL,h .ctrlL,h .altL,hext⟩

/-- A key goes down or up, in the flags and at the keyboard. -/
theorem Follows.setFlag_iff (h : k.Follows down) (key : ModKey) (value ext : Bool) :
    ({ k.setFlag key value with extScancode := ext } : Keyboard).Follows
        (Function.update down key value) ↔
      ext = false ∧ value = (value || down key.twin) := by
  have hold := (follows_iff.mp h).1
  have hne : key.twin ≠ key := by cases key <;> decide
  have htwin : key.twin.twin = key := by cases key <;> rfl
  have hflag (key' : ModKey) : ({ k.setFlag key value with extScancode := ext } : Keyboard).flag key' =
      if key' = key ∨ key' = key.twin then value else k.flag key' := flag_setFlag key key' value
  rw [follows_iff]
  constructor
  · rintro ⟨hf,hext⟩
    have hk := hf key
    rw [hflag,if_pos (.inl rfl),Function.update_self,Function.update_of_ne hne] at hk
    exact ⟨hext,hk⟩
  · rintro ⟨hext,hv⟩
    refine ⟨fun key' => ?_,hext⟩
    rw [hflag]
    by_cases hk : key' = key
    · subst hk
      rwa [if_pos (.inl rfl),Function.update_self,Function.update_of_ne hne]
    by_cases ht : key' = key.twin
    · subst ht
      rw [if_pos (.inr rfl),htwin,Function.update_self,Function.update_of_ne hne,Bool.or_comm]
      exact hv
    · have hkt : key'.twin ≠ key := by
        intro he
        apply ht
        rw [← he]
        cases key' <;> rfl
      rw [if_neg (not_or.mpr ⟨hk,ht⟩),hold,Function.update_of_ne hk,Function.update_of_ne hkt]

/-- One event: the flags go on following the keys exactly when the event is clean. -/
theorem Follows.event (h : k.Follows down) (e : KeyEvent) :
    (k.handleAll e.bytes).Follows (e.keys down) ↔ e.Clean down := by
  cases e with
  | press key =>
    rw [handleAll_press,h.ext,Bool.false_or]
    change Keyboard.Follows _ (Function.update down key true) ↔ key.extended = false
    rw [h.setFlag_iff key true key.extended]
    simp
  | release key =>
    rw [handleAll_release,h.ext,Bool.false_or]
    change Keyboard.Follows _ (Function.update down key false) ↔
      key.extended = false ∧ down key.twin = false
    rw [h.setFlag_iff key false key.extended,Bool.false_or,
      @eq_comm _ false (down key.twin)]
  | other code hcode =>
    obtain ⟨caps,he⟩ := k.handle_other hcode
    refine iff_of_true ?_ trivial
    change (k.handle code).Follows down
    rw [he]
    exact ⟨h.shift,h.ctrl,h.alt,h.ext⟩
  | otherExtended code =>
    refine iff_of_false (fun hf => ?_) id
    have he : (({ k with extScancode := true } : Keyboard).handle code).extScancode = true :=
      handle_extScancode _ rfl
    rw [show k.handleAll (KeyEvent.otherExtended code).bytes =
      ({ k with extScancode := true } : Keyboard).handle code from rfl] at hf
    rw [hf.ext] at he
    contradiction
  | pause =>
    rw [handleAll_pause]
    constructor
    · intro hf
      exact Bool.or_eq_false_iff.mp hf.ctrl.symm
    · rintro ⟨hl,hr⟩
      exact ⟨h.shift,by simp [KeyEvent.keys,hl,hr],h.alt,h.ext⟩

theorem follows_initial : initial.Follows fun _ => false := ⟨rfl,rfl,rfl,rfl⟩

theorem after_append (es : List KeyEvent) (e : KeyEvent) :
    after (es++[e]) = (after es).handleAll e.bytes := by
  simp [after,handleAll]

theorem downs_append (es : List KeyEvent) (e : KeyEvent) :
    downs (es++[e]) = e.keys (downs es) := by
  simp [downs]

/-- All events: the flags follow the keys all the time exactly when every event is clean. -/
theorem after_follows_iff (es : List KeyEvent) :
    (∀ pre, pre <+: es → (after pre).Follows (downs pre)) ↔ AllClean es := by
  constructor
  · intro h pre e hpre
    have hold := h pre ((List.prefix_append pre [e]).trans hpre)
    have hnew := h (pre++[e]) hpre
    rw [after_append,downs_append] at hnew
    exact (hold.event e).mp hnew
  · intro h pre hpre
    induction pre using List.reverseRecOn with
    | nil => exact follows_initial
    | append_singleton pre e ih =>
      rw [after_append,downs_append]
      exact ((ih ((List.prefix_append pre [e]).trans hpre)).event e).mpr (h pre e hpre)

end Follow
end Keyboard

theorem WellFormed.append {es : List KeyEvent} {e : KeyEvent} (h : WellFormed es)
    (he : e.Possible (downs es)) : WellFormed (es++[e]) := by
  intro pre e' hpre
  rcases List.prefix_concat_iff.mp hpre with heq | hpre
  · obtain ⟨rfl,hs⟩ := List.append_inj' heq rfl
    obtain rfl := List.singleton_inj.mp hs
    exact he
  · exact h pre e' hpre

namespace KeyboardSys

/-- The handler takes the bytes one after the other. In between other code runs, which may move
the scheduler and the queue. -/
inductive Takes : KeyboardSys → List UInt8 → KeyboardSys → Prop
  | done (s : KeyboardSys) : Takes s [] s
  | other {s s' s'' bs} (hk : s'.kbd = s.kbd) (h : Takes s' bs s'') : Takes s bs s''
  | byte {s s' s'' b bs} (hb : s.intrKeyboardHandler b = .ok s') (h : Takes s' bs s'') :
    Takes s (b::bs) s''

/-- The states after the events es. -/
inductive After : List KeyEvent → KeyboardSys → Prop
  | boot {s} (h : s.kbd = Keyboard.initial) : After [] s
  | event {es e s s'} (h : After es s) (hb : Takes s (KeyEvent.bytes e) s') : After (es++[e]) s'

section Runs
variable {s s' : KeyboardSys} {es : List KeyEvent}

theorem enqueue_kbd {c : UInt8} (h : s.enqueue c = .ok s') : s'.kbd = s.kbd := by
  obtain ⟨full,-,h⟩ := bind_eq_ok_iff.mp h
  split at h
  · rw [← Except.ok.inj h]
  · obtain ⟨⟨sched,ioq⟩,-,h⟩ := bind_eq_ok_iff.mp h
    rw [← Except.ok.inj h]

theorem intrKeyboardHandler_kbd {b : UInt8} (h : s.intrKeyboardHandler b = .ok s') :
    s'.kbd = s.kbd.handle b := by
  simp only [intrKeyboardHandler] at h
  simp only [Keyboard.handle]
  split at h
  · rw [if_pos ‹_›,← Except.ok.inj h]
  rw [if_neg ‹_›]
  split at h
  · rw [if_pos ‹_›,← Except.ok.inj h]
  rw [if_neg ‹_›]
  split at h
  · rw [if_pos ‹_›]
    split at h
    · rw [if_pos ‹_›,enqueue_kbd h]
    · rw [if_neg ‹_›,← Except.ok.inj h]
  · rw [if_neg ‹_›,← Except.ok.inj h]

theorem Takes.kbd {bs : List UInt8} (h : Takes s bs s') : s'.kbd = s.kbd.handleAll bs := by
  induction h with
  | done s => rfl
  | other hk _ ih => rw [ih,hk]
  | byte hb _ ih =>
    rw [ih,intrKeyboardHandler_kbd hb]
    rfl

theorem After.kbd (h : After es s) : s.kbd = Keyboard.after es := by
  induction h with
  | boot h => exact h
  | event _ hb ih => rw [Keyboard.after_append,hb.kbd,ih]

/-- Every sequence of events has a run. -/
theorem Inv.takes (h : s.Inv) (bs : List UInt8) : ∃ s', Takes s bs s' ∧ s'.Inv := by
  induction bs generalizing s with
  | nil => exact ⟨s,.done s,h⟩
  | cons b bs ih =>
    cases hb : s.intrKeyboardHandler b with
    | ok s₁ =>
      obtain ⟨s',ht,hi⟩ := ih ((h.key b).of_ok hb)
      exact ⟨s',.byte hb ht,hi⟩
    | error p => exact ((h.key b).of_error hb).elim

theorem untouched_inv : untouched.Inv := init_inv _ _ rfl

theorem exists_after (es : List KeyEvent) : ∃ s, After es s ∧ s.Inv := by
  induction es using List.reverseRecOn with
  | nil => exact ⟨untouched,.boot rfl,untouched_inv⟩
  | append_singleton es e ih =>
    obtain ⟨s,ha,hi⟩ := ih
    obtain ⟨s',ht,hi'⟩ := hi.takes e.bytes
    exact ⟨s',.event ha ht,hi'⟩

/-- The flags follow the keys after every event of every run exactly when all events are
clean. -/
theorem modifiers_follow_iff (es : List KeyEvent) :
    (∀ pre, pre <+: es → ∀ s, After pre s → s.kbd.Follows (downs pre)) ↔ AllClean es := by
  rw [← Keyboard.after_follows_iff es]
  constructor
  · intro h pre hpre
    obtain ⟨s,ha,-⟩ := exists_after pre
    rw [← ha.kbd]
    exact h pre hpre s ha
  · intro h pre hpre s ha
    rw [ha.kbd]
    exact h pre hpre

/-- Both shift keys are down, and one of them goes up. -/
def bothShifts : List KeyEvent := [.press .shiftL,.press .shiftR,.release .shiftL]

theorem bothShifts_wellFormed : WellFormed bothShifts := by
  have hnil : WellFormed [] := fun pre e hpre => by simp at hpre
  exact ((hnil.append (e := .press .shiftL) trivial).append (e := .press .shiftR) trivial).append
    (e := .release .shiftL) rfl

/-- The flag is false while a shift key is down. -/
theorem bothShifts_forgotten : ¬ ∀ es, WellFormed es → ∀ s, After es s →
    s.kbd.Follows (downs es) := by
  intro h
  obtain ⟨s,ha,-⟩ := exists_after bothShifts
  have hf := (h bothShifts bothShifts_wellFormed s ha).shift
  rw [ha.kbd] at hf
  revert hf
  decide

end Runs
end KeyboardSys
end OsKernel

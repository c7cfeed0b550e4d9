import OsKernel.Device.KeyboardModifiers

/-! Typing: from a text to the scancodes of its keys, through the handler and the queue, and back
to the text that is read. -/
namespace OsKernel
open Ioqueue

namespace Keyboard

/-- The character that the handler finds for a byte. -/
def char (k : Keyboard) (data : UInt8) : Option UInt8 :=
  let scancode := data.toNat
  if scancode = 0xe0 then none
  else if scancode &&& 0x0080 ≠ 0 then none
  else if 0x00 < scancode ∧ scancode < 0x3b ∨ scancode = altRMake ∨ scancode = ctrlRMake then
    let curChar := keymap (scancode &&& 0x00ff) (k.shift scancode)
    if curChar ≠ 0 then some curChar else none
  else none

/-- The characters of a sequence of bytes. -/
def translate (k : Keyboard) : List UInt8 → List UInt8
  | [] => []
  | b::bs => (k.char b).toList ++ (k.handle b).translate bs

/-- The flags, with the shift key in the given position. -/
def withShift (k : Keyboard) (down : Bool) : Keyboard := { k with shiftStatus := down }

/-- The key that gives a character, for the given position of the shift key. -/
def keyFor (k : Keyboard) (c : UInt8) : Option ℕ :=
  (List.range 0x3b).find? fun scancode => keymap scancode (k.shift scancode) = c

/-- A key goes down and up. -/
def stroke (scancode : ℕ) : List UInt8 := [scancode.toUInt8,scancode.toUInt8 ||| 0x80]

/-- The bytes for a character, where the left shift key is used if necessary. -/
def strokes (k : Keyboard) (c : UInt8) : List UInt8 :=
  match (k.withShift false).keyFor c with
  | some scancode => stroke scancode
  | none =>
    match (k.withShift true).keyFor c with
    | some scancode => [0x2a] ++ stroke scancode ++ [0xaa]
    | none => []

/-- The keyboard has a key for the character. -/
def Typable (c : UInt8) : Prop := c ≠ 0 ∧ ∃ scancode < 0x3b, ∃ shift, keymap scancode shift = c

section Translate
variable {k : Keyboard} {c : UInt8} {scancode : ℕ}

theorem translate_append (k : Keyboard) (bs bs' : List UInt8) :
    k.translate (bs ++ bs') = k.translate bs ++ (k.handleAll bs).translate bs' := by
  induction bs generalizing k with
  | nil => rfl
  | cons b bs ih =>
    simp only [List.cons_append,translate,ih,List.append_assoc]
    rfl

theorem handleAll_append (k : Keyboard) (bs bs' : List UInt8) :
    k.handleAll (bs ++ bs') = (k.handleAll bs).handleAll bs' := List.foldl_append

/-- No modifier has a character. -/
theorem not_modifier (hlt : scancode < 0x3b) {shift : Bool} (h : keymap scancode shift ≠ 0) :
    scancode ∉ [0,0x1d,0x2a,0x36,0x38,0x3a] := by
  revert shift scancode
  decide

/-- The two bytes of a key are what the handler takes them for. -/
theorem stroke_codes (hlt : scancode < 0x3b) : scancode.toUInt8.toNat = scancode ∧
    (scancode.toUInt8 ||| 0x80).toNat = scancode+0x80 ∧ scancode &&& 0x0080 = 0 ∧
    scancode &&& 0x00ff = scancode ∧ (scancode+0x80) &&& 0x0080 ≠ 0 ∧
    (scancode+0x80) &&& 0xff7f = scancode := by
  revert scancode
  decide

/-- A key with a character, when the flags select the character c. -/
theorem stroke_translate (hlt : scancode < 0x3b) (hc : c ≠ 0)
    (h : keymap scancode (k.shift scancode) = c) :
    k.translate (stroke scancode) = [c] ∧ k.handleAll (stroke scancode) = k := by
  obtain ⟨hmake,hbreak,hlow,hindex,hhigh,hdown⟩ := stroke_codes hlt
  have hmod := not_modifier hlt (h ▸ hc)
  simp only [List.mem_cons,List.not_mem_nil,or_false,not_or] at hmod
  obtain ⟨h₀,h₁,h₂,h₃,h₄,-⟩ := hmod
  have hpos : 0 < scancode ∧ scancode < 0x3b := ⟨Nat.pos_of_ne_zero h₀,hlt⟩
  have hchar : k.char scancode.toUInt8 = some c := by
    simp only [char,hmake]
    rw [if_neg (by omega),if_neg (by simp [hlow]),if_pos (.inl hpos),hindex,h,if_pos hc]
  have hkeep : k.handle scancode.toUInt8 = k := by
    simp only [handle,hmake]
    rw [if_neg (by omega),if_neg (by simp [hlow]),if_pos (.inl hpos),hindex,h,if_pos hc]
  have hup : k.char (scancode.toUInt8 ||| 0x80) = none ∧
      k.handle (scancode.toUInt8 ||| 0x80) = k := by
    simp only [char,handle,hbreak]
    rw [if_neg (by omega),if_pos hhigh,if_neg (by omega),if_pos hhigh,hdown]
    refine ⟨rfl,?_⟩
    have hctrl : ¬(scancode = ctrlLMake ∨ scancode = ctrlRMake) := by
      unfold ctrlLMake ctrlRMake
      omega
    have hshift : ¬(scancode = shiftLMake ∨ scancode = shiftRMake) := by
      unfold shiftLMake shiftRMake
      omega
    have halt : ¬(scancode = altLMake ∨ scancode = altRMake) := by
      unfold altLMake altRMake
      omega
    rw [breakCode,if_neg hctrl,if_neg hshift,if_neg halt]
  constructor
  · simp [stroke,translate,hchar,hkeep,hup.1]
  · simp [stroke,handleAll,hkeep,hup.2]

theorem keyFor_some (h : k.keyFor c = some scancode) :
    scancode < 0x3b ∧ keymap scancode (k.shift scancode) = c := by
  have hfound := List.find?_some h
  exact ⟨List.mem_range.mp (List.mem_of_find?_eq_some h),by simpa using hfound⟩

/-- Either position of the shift key reaches either column, whatever caps lock does. -/
theorem shift_cases (k : Keyboard) (scancode : ℕ) (shift : Bool) :
    (k.withShift false).shift scancode = shift ∨ (k.withShift true).shift scancode = shift := by
  obtain ⟨ctrl,down,alt,caps,ext⟩ := k
  unfold Keyboard.shift withShift
  dsimp only
  split
  · cases shift <;> simp
  · cases caps <;> cases shift <;> simp

theorem keyFor_isSome (hlt : scancode < 0x3b) (h : keymap scancode (k.shift scancode) = c) :
    (k.keyFor c).isSome := by
  rw [keyFor,List.find?_isSome]
  exact ⟨scancode,List.mem_range.mpr hlt,by simpa using h⟩

/-- The left shift key goes down and up. -/
theorem shiftL_codes (hk : k.shiftStatus = false) :
    k.char 0x2a = none ∧ k.handle 0x2a = k.withShift true ∧
    (k.withShift true).char 0xaa = none ∧ (k.withShift true).handle 0xaa = k := by
  obtain ⟨ctrl,down,alt,caps,ext⟩ := k
  obtain rfl : down = false := hk
  revert ctrl alt caps ext
  decide

/-- The strokes of one character. -/
theorem strokes_translate (hk : k.shiftStatus = false) (hc : Typable c) :
    k.translate (k.strokes c) = [c] ∧ k.handleAll (k.strokes c) = k := by
  have hself : k.withShift false = k := by
    obtain ⟨ctrl,down,alt,caps,ext⟩ := k
    obtain rfl : down = false := hk
    rfl
  obtain ⟨hne,scancode,hlt,shift,hmap⟩ := hc
  unfold strokes
  rw [hself]
  cases hplain : k.keyFor c with
  | some code =>
    obtain ⟨hcode,heq⟩ := keyFor_some hplain
    exact stroke_translate hcode hne heq
  | none =>
    cases hshift : (k.withShift true).keyFor c with
    | some code =>
      obtain ⟨hcode,heq⟩ := keyFor_some hshift
      obtain ⟨htext,hkeep⟩ := stroke_translate hcode hne heq
      obtain ⟨h₁,h₂,h₃,h₄⟩ := shiftL_codes hk
      dsimp only
      rw [translate_append,handleAll_append,translate_append,handleAll_append]
      have hdown : k.translate [0x2a] = [] ∧ k.handleAll [0x2a] = k.withShift true := by
        simp [translate,handleAll,h₁,h₂]
      have hup : (k.withShift true).translate [0xaa] = [] ∧
          (k.withShift true).handleAll [0xaa] = k := by
        simp [translate,handleAll,h₃,h₄]
      rw [handleAll_append,hdown.1,hdown.2,htext,hkeep,hup.1,hup.2]
      exact ⟨rfl,rfl⟩
    | none =>
      exfalso
      obtain hs|hs := k.shift_cases scancode shift
      · have hsome := keyFor_isSome hlt (hs ▸ hmap)
        rw [hself,hplain] at hsome
        cases hsome
      · have hsome := keyFor_isSome hlt (hs ▸ hmap)
        rw [hshift] at hsome
        cases hsome

/-- The strokes of a text. -/
theorem text_translate (hk : k.shiftStatus = false) {text : List UInt8}
    (ht : ∀ c ∈ text, Typable c) : k.translate (text.flatMap k.strokes) = text ∧
      k.handleAll (text.flatMap k.strokes) = k := by
  induction text with
  | nil => exact ⟨rfl,rfl⟩
  | cons c text ih =>
    obtain ⟨htext,hkeep⟩ := strokes_translate hk (ht c List.mem_cons_self)
    obtain ⟨ih₁,ih₂⟩ := ih fun b hb => ht b (List.mem_cons_of_mem c hb)
    rw [List.flatMap_cons,translate_append,handleAll_append,htext,hkeep,ih₁,ih₂]
    exact ⟨rfl,rfl⟩

end Translate
end Keyboard

namespace KeyboardSys

/-- The character that the handler finds for a byte, if it finds one, and whether the queue has
room for it. -/
def found (s : KeyboardSys) (data : UInt8) : List (UInt8 × Bool) :=
  (s.kbd.char data).toList.map fun c => (c,decide (nextPos s.ioq.head ≠ s.ioq.tail))

/-- A run in which the handler takes the given bytes, with the characters that it finds on the
way. Between the interrupts some thread may read. -/
inductive Types : KeyboardSys → List UInt8 → List (UInt8 × Bool) → KeyboardSys → Prop
  | done (s : KeyboardSys) : Types s [] [] s
  | key {s s' s'' b bs log} (hb : s.exec (.key b) = .ok s') (h : Types s' bs log s'') :
    Types s (b::bs) (s.found b ++ log) s''
  | get {s s' s'' bs log} (hen : s.Enabled .get) (hg : s.exec .get = .ok s')
    (h : Types s' bs log s'') : Types s bs log s''

/-- The characters that found room. -/
def kept (log : List (UInt8 × Bool)) : List UInt8 := (log.filter Prod.snd).map Prod.fst

section Typing
variable {s s' : KeyboardSys} {b : UInt8} {bs : List UInt8} {log log' : List (UInt8 × Bool)}

theorem kept_append : kept (log ++ log') = kept log ++ kept log' := by
  rw [kept,List.filter_append,List.map_append]
  rfl

/-- The handler puts the character that it finds, or changes the flags. -/
theorem intrKeyboardHandler_eq (s : KeyboardSys) (b : UInt8) : s.intrKeyboardHandler b =
    match s.kbd.char b with
    | some c => s.enqueue c
    | none => .ok { s with kbd := s.kbd.handle b } := by
  simp only [intrKeyboardHandler,Keyboard.char,Keyboard.handle]
  split_ifs <;> rfl

theorem Inv.enqueue_puts (h : s.Inv) {c : UInt8} (he : s.enqueue c = .ok s') :
    s'.puts = s.puts ++ (if nextPos s.ioq.head = s.ioq.tail then [] else [c]) := by
  rw [enqueue,ioqFull_eq h.intr,bind_of_ok rfl] at he
  by_cases hfull : nextPos s.ioq.head = s.ioq.tail
  · simp only [hfull,decide_true,if_true] at he
    rw [← Except.ok.inj he,if_pos hfull,List.append_nil]
  · simp only [hfull,decide_false,Bool.false_eq_true,if_false] at he
    rw [if_neg hfull]
    exact ((h.put hfull c).of_ok he).2.1

/-- The character of a byte is put if there is room for it. -/
theorem Inv.key_puts (h : s.Inv) (hb : s.exec (.key b) = .ok s') :
    s'.puts = s.puts ++ kept (s.found b) := by
  have heq := s.intrKeyboardHandler_eq b
  cases hc : s.kbd.char b with
  | none =>
    rw [hc] at heq
    have hs : Except.ok { s with kbd := s.kbd.handle b } = Except.ok s' := heq.symm.trans hb
    obtain rfl := Except.ok.inj hs
    rw [found,hc]
    exact (List.append_nil _).symm
  | some c =>
    rw [hc] at heq
    rw [h.enqueue_puts (heq.symm.trans hb),found,hc]
    by_cases hfull : nextPos s.ioq.head = s.ioq.tail
    · simp [kept,hfull]
    · simp [kept,hfull]

theorem Inv.get_eq (h : s.Inv) (hen : s.Enabled .get) (hg : s.exec .get = .ok s') :
    s'.Inv ∧ s'.puts = s.puts ∧ s'.kbd = s.kbd := by
  rw [Enabled,ioqEmpty_eq h.intr] at hen
  exact (h.get (by simpa using hen)).of_ok hg

/-- The handler finds the characters of its bytes, and those that found room are put in their
order. -/
theorem Types.puts (h : s.Inv) (hrun : Types s bs log s') : s'.Inv ∧
    s'.kbd = s.kbd.handleAll bs ∧ log.map Prod.fst = s.kbd.translate bs ∧
    s'.puts = s.puts ++ kept log := by
  induction hrun with
  | done s => exact ⟨h,rfl,rfl,(List.append_nil _).symm⟩
  | @key s s₁ s' b bs log hb _ ih =>
    obtain ⟨hinv,hkbd,hlog,hputs⟩ := ih ((h.key b).of_ok hb)
    rw [intrKeyboardHandler_kbd hb] at hkbd hlog
    refine ⟨hinv,hkbd,?_,?_⟩
    · rw [List.map_append,hlog,Keyboard.translate,found,List.map_map]
      congr 1
      exact List.map_id _
    · rw [hputs,h.key_puts hb,kept_append,List.append_assoc]
  | get hen hg _ ih =>
    obtain ⟨hinv,hputs,hkbd⟩ := h.get_eq hen hg
    rw [← hputs,← hkbd]
    exact ih hinv

/-- What is typed is what is read. A text is typed key by key on a keyboard whose shift key is up,
in any state of caps lock, while threads read from the queue. The handler finds the characters of
the text. Those that found room are put, in this order and no others, and the bytes that the
threads have been given are the first ones of them. Afterwards the flags are as before. -/
theorem types_text {sched : Sched} {buf : ℕ → UInt8} {kbd : Keyboard} {text : List UInt8}
    (hi : sched.intr = false) (hk : kbd.shiftStatus = false) (ht : ∀ c ∈ text, Keyboard.Typable c)
    (hrun : Types (init sched buf kbd) (text.flatMap kbd.strokes) log s') :
    log.map Prod.fst = text ∧ s'.puts = kept log ∧ s'.gets <+: s'.puts ∧
    ((∀ c ∈ log, c.2 = true) → s'.puts = text) ∧ s'.kbd = kbd := by
  obtain ⟨hinv,hkbd,hlog,hputs⟩ := hrun.puts (init_inv buf kbd hi)
  obtain ⟨htext,hkeep⟩ := Keyboard.text_translate hk ht
  change s'.kbd = kbd.handleAll _ at hkbd
  change _ = kbd.translate _ at hlog
  change s'.puts = kept log at hputs
  rw [htext] at hlog
  rw [hkeep] at hkbd
  obtain ⟨pending,-,hfifo⟩ := hinv.fifo
  refine ⟨hlog,hputs,⟨pending,hfifo.symm⟩,fun hroom => ?_,hkbd⟩
  rw [hputs,kept,List.filter_eq_self.mpr hroom,hlog]

/-- The letters A and b are typed, the first one with the shift key, and one byte is read in
between. -/
theorem types_text_shifted : ∃ s', Types untouched ([65,98].flatMap untouched.kbd.strokes)
    [(65,true),(98,true)] s' ∧ s'.puts = [65,98] ∧ s'.gets = [65] := by
  have hrun : ∃ s', Types untouched ([65,98].flatMap untouched.kbd.strokes)
      [(65,true),(98,true)] s' ∧ s'.gets = [65] := by
    rw [show [65,98].flatMap untouched.kbd.strokes = [0x2a,0x1e,0x9e,0xaa,0x30,0xb0] by decide]
    exact ⟨_,.key rfl (.key rfl (.get rfl rfl (.key rfl (.key rfl (.key rfl (.key rfl
      (.done _))))))),rfl⟩
  obtain ⟨s',hrun,hgets⟩ := hrun
  have htypable : ∀ c ∈ [65,98], Keyboard.Typable c := by
    intro c hc
    rcases List.mem_pair.mp hc with rfl | rfl
    · exact ⟨by decide,0x1e,by decide,true,by decide⟩
    · exact ⟨by decide,0x30,by decide,false,by decide⟩
  have hputs := (types_text rfl rfl htypable hrun).2.2.2.1 (by simp)
  exact ⟨s',hrun,hputs,hgets⟩

end Typing
end KeyboardSys
end OsKernel

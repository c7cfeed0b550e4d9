import OsKernel.Library.Routine
import OsKernel.Print.Number

/-! The routines of print.S one access at a time: every access to the text memory, to the display
controller and to put_int_buffer is a step of its own, since another thread may get the processor
between any two of them. The registers are private. -/
namespace OsKernel
open X86

/-- What all threads share. -/
structure Display where
  mem : Mem
  vga : Vga

namespace Display
variable (d : Display)

/-- Port 0x3d4. -/
def outIndex (b : BitVec 8) : Display := { d with vga := { d.vga with index := b } }

/-- Port 0x3d5. -/
def outData (b : BitVec 8) : Display :=
  { d with vga := { d.vga with data := Function.update d.vga.data d.vga.index b } }

def inData : BitVec 8 := d.vga.data d.vga.index

def setMem (m : Mem) : Display := { d with mem := m }

/-- A store at an offset into the segment of the text memory. -/
def gsStore8 (off : Word) (b : BitVec 8) : Except Fault Display :=
  if off.toNat ≤ videoLimit then .ok (d.setMem (Function.update d.mem (videoBase+off) b))
  else .error .protection

def gsStore16 (off : Word) (v : BitVec 16) : Except Fault Display :=
  if off.toNat+1 ≤ videoLimit then
    .ok (d.setMem (Function.update (Function.update d.mem (videoBase+off) (v.setWidth 8))
      (videoBase+off+1) (v.extractLsb' 8 8)))
  else .error .protection

/-- The cursor has moved. -/
def withCursor (m : Mem) (bx : BitVec 16) : Display := ⟨m,d.vga.withCursor bx⟩

end Display

/-- The next access of a thread in put_char, with the registers that matter for it. -/
inductive CharPc
  /-- out 0x3d4, 0x0e -/
  | getHighIndex
  /-- in ah, 0x3d5 -/
  | getHigh
  | getLowIndex (ah : BitVec 8)
  | getLow (ah : BitVec 8)
  /-- The first store of .put_other or .is_backspace -/
  | char (bx : BitVec 16)
  /-- The second one, where bx is an offset -/
  | attr (bx : BitVec 16)
  /-- rep movsd, with esi 160 bytes behind edi -/
  | movsd (ecx : ℕ) (edi : Word)
  /-- The loop .cls of .roll_screen -/
  | cls (ecx : ℕ) (ebx : Word)
  | setHighIndex (bx : BitVec 16)
  | setHigh (bx : BitVec 16)
  | setLowIndex (bx : BitVec 16)
  | setLow (bx : BitVec 16)
  deriving DecidableEq, Repr

namespace CharPc

/-- The labels .is_line_feed and .is_carriage_return, up to the next access. -/
def isLineFeed (bx : BitVec 16) : CharPc :=
  let bx := bx-bx % 80
  let bx := bx+80
  if bx.slt 2000 then .setHighIndex bx else .movsd 960 0xc00b8000

/-- The comparisons after the cursor has been read. -/
def compare (cl : BitVec 8) (bx : BitVec 16) : CharPc :=
  if cl = 0x0d then isLineFeed bx
  else if cl = 0x0a then isLineFeed bx
  else .char bx

end CharPc

/-- put_char for the character in cl. -/
def putCharAccess (cl : BitVec 8) : Routine Fault CharPc Display
  | .getHighIndex,d => .ok (d.outIndex 0x0e,some .getHigh)
  | .getHigh,d => .ok (d,some (.getLowIndex d.inData))
  | .getLowIndex ah,d => .ok (d.outIndex 0x0f,some (.getLow ah))
  | .getLow ah,d => .ok (d,some (CharPc.compare cl (ah ++ d.inData)))
  | .char bx,d =>
    if cl = 0x08 then
      let bx := bx-1
      let bx := bx <<< 1
      d.gsStore8 (bx.setWidth 32) 0x20 >>= fun d => .ok (d,some (.attr (bx+1)))
    else
      let bx := bx <<< 1
      d.gsStore8 (bx.setWidth 32) cl >>= fun d => .ok (d,some (.attr (bx+1)))
  | .attr bx,d =>
    d.gsStore8 (bx.setWidth 32) 0x07 >>= fun d =>
      let bx := bx >>> 1
      if cl = 0x08 then .ok (d,some (.setHighIndex bx))
      else
        let bx := bx+1
        .ok (d,some (if bx.slt 2000 then .setHighIndex bx else .isLineFeed bx))
  | .movsd 0 _,d => .ok (d,some (.cls 80 3840))
  | .movsd (ecx+1) edi,d =>
    .ok (d.setMem (store d.mem edi (load d.mem (edi+160))),some (.movsd ecx (edi+4)))
  | .cls 0 _,d => .ok (d,some (.setHighIndex 1920))
  | .cls (ecx+1) ebx,d =>
    d.gsStore16 ebx 0x0720 >>= fun d => .ok (d,some (.cls ecx (ebx+2)))
  | .setHighIndex bx,d => .ok (d.outIndex 0x0e,some (.setHigh bx))
  | .setHigh bx,d => .ok (d.outData (bx.extractLsb' 8 8),some (.setLowIndex bx))
  | .setLowIndex bx,d => .ok (d.outIndex 0x0f,some (.setLow bx))
  | .setLow bx,d => .ok (d.outData (bx.setWidth 8),none)

/-- Where put_char returns to: the caller of put_char, put_str with the characters that are left,
or put_int with its index into the buffer. -/
inductive PutCharCaller
  | direct
  | putStr (rest : List (BitVec 8))
  | putInt (edi : ℕ)
  deriving DecidableEq, Repr

/-- The next access of a thread in put_char, put_str or put_int. -/
inductive PrintPc
  | putChar (caller : PutCharCaller) (cl : BitVec 8) (pc : CharPc)
  /-- The label .goon -/
  | goon (str : List (BitVec 8))
  /-- The store of the loop .16based_4bits -/
  | based16 (n : Word) (ecx : ℕ)
  /-- The label .skip_prefix_0 -/
  | skipPrefix0 (edi : ℕ)
  /-- The fetch after the increment of edi in .put_each_num -/
  | fetch (edi : ℕ)
  deriving DecidableEq, Repr

def PutCharCaller.next : PutCharCaller → Option PrintPc
  | .direct => none
  | .putStr rest => some (.goon rest)
  | .putInt edi => some (.fetch (edi+1))

/-- The three routines. -/
def printAccess (l : Link) : Routine Fault PrintPc Display
  | .putChar caller cl pc,d => (putCharAccess cl pc d).map fun x =>
    (x.1,x.2.elim caller.next fun pc => some (.putChar caller cl pc))
  | .goon [],d => .ok (d,none)
  | .goon (cl::rest),d => .ok (d,some (.putChar (.putStr rest) cl .getHighIndex))
  | .based16 _ 0,d => .ok (d,some (.skipPrefix0 0))
  | .based16 n (ecx+1),d =>
    .ok (d.setMem (Function.update d.mem (l.putIntBuffer+BitVec.ofNat 32 ecx) (hexDigit n)),
      some (.based16 (n >>> 4) ecx))
  | .skipPrefix0 edi,d =>
    if edi = 8 then .ok (d,some (.putChar (.putInt 8) 0x30 .getHighIndex))
    else
      let cl := d.mem (l.putIntBuffer+BitVec.ofNat 32 edi)
      .ok (d,some (if cl = 0x30 then .skipPrefix0 (edi+1)
        else .putChar (.putInt edi) cl .getHighIndex))
  | .fetch edi,d =>
    let cl := d.mem (l.putIntBuffer+BitVec.ofNat 32 edi)
    .ok (d,if edi < 8 then some (.putChar (.putInt edi) cl .getHighIndex) else none)

/-- The characters of a string up to its terminator, which is the first 0. -/
structure CString where
  chars : List (BitVec 8)
  noZero : 0 ∉ chars
  deriving DecidableEq, Repr

/-- The calls of the three routines. -/
inductive PrintCall
  | putStr (str : CString)
  | putInt (num : Word)
  | putChar (chr : BitVec 8)
  deriving DecidableEq, Repr

namespace PrintCall

/-- The first access of a call. -/
def start : PrintCall → PrintPc
  | .putStr str => .goon str.chars
  | .putInt num => .based16 num 8
  | .putChar chr => .putChar .direct chr .getHighIndex

/-- The text of a call. -/
def text : PrintCall → List (BitVec 8)
  | .putStr str => str.chars
  | .putInt num => intText num
  | .putChar chr => [chr]

end PrintCall

section Accesses
open Routine
variable {d d' d'' : Display} {c : BitVec 8} {bx : BitVec 16} {l : Link}

/-- Cursor and text memory are those after the characters of a text. -/
structure Display.Prints (d : Display) (cs : List (BitVec 8)) (d' : Display) : Prop where
  cursor : d'.vga.cursor = cs.foldl advance d.vga.cursor
  text : ∀ x, InVideo x → d'.mem x = paintAll d.mem d.vga.cursor cs x

theorem Display.Prints.refl (d : Display) : d.Prints [] d := ⟨rfl,fun _ _ => rfl⟩

theorem Display.Prints.trans {cs ds : List (BitVec 8)} (h : d.Prints cs d') (h' : d'.Prints ds d'') :
    d.Prints (cs++ds) d'' := by
  refine ⟨?_,fun x hx => ?_⟩
  · rw [h'.cursor,h.cursor,List.foldl_append]
  · rw [h'.text x hx,h.cursor,paintAll_append]
    exact paintAll_congr h.text hx

theorem setCursor_runs : Runs (putCharAccess c) (some (.setHighIndex bx)) d none
    (d.withCursor d.mem bx) :=
  .step rfl (.step rfl (.step rfl (.single rfl)))

theorem movsd_runs {n : ℕ} {edi : Word} (hn : 4*n+160 ≤ 2^32) :
    Runs (putCharAccess c) (some (.movsd n edi)) d (some (.cls 80 3840))
      (d.setMem (shiftUp d.mem edi n)) := by
  induction n generalizing d edi with
  | zero =>
    rw [shiftUp_zero]
    exact .single rfl
  | succ n ih =>
    rw [shiftUp_succ hn]
    exact .step rfl (ih (by omega))

theorem cls_runs {n : ℕ} {ebx : Word} (hn : ebx.toNat+2*n ≤ videoLimit+1) :
    Runs (putCharAccess c) (some (.cls n ebx)) d (some (.setHighIndex 1920))
      (d.setMem (blanks d.mem ebx n)) := by
  have hl : videoLimit = 0x7fff := rfl
  induction n generalizing d ebx with
  | zero =>
    rw [blanks_zero]
    exact .single rfl
  | succ n ih =>
    have hstep : putCharAccess c (.cls (n+1) ebx) d = .ok (d.setMem (Function.update
        (Function.update d.mem (videoBase+ebx) 0x20) (videoBase+ebx+1) 0x07),
        some (.cls n (ebx+2))) :=
      bind_of_ok (if_pos (by omega))
    rw [blanks_succ (by omega)]
    exact .step hstep (ih (by bv_omega))

theorem isLineFeed_runs : Runs (putCharAccess c) (some (.isLineFeed bx)) d none
    (d.withCursor (feedMem d.mem bx) (feed bx)) := by
  have heq : CharPc.isLineFeed bx = if (lineStart bx).slt 2000 then .setHighIndex (lineStart bx)
    else .movsd 960 0xc00b8000 := rfl
  rw [heq,feedMem,feed]
  split_ifs
  · exact setCursor_runs
  · exact (movsd_runs (by decide)).trans ((cls_runs (by decide)).trans setCursor_runs)

/-- The two stores of a character. -/
theorem cell_runs {cell : BitVec 16} {ch : BitVec 8} {o : Option CharPc}
    (hfit : (cell <<< 1).toNat ≤ videoLimit)
    (hchar : putCharAccess c (.char bx) d = (d.gsStore8 ((cell <<< 1).setWidth 32) ch >>=
      fun d => .ok (d,some (.attr (cell <<< 1+1)))))
    (hattr : ∀ d', putCharAccess c (.attr (cell <<< 1+1)) d' =
      (d'.gsStore8 ((cell <<< 1+1).setWidth 32) 0x07 >>= fun d => .ok (d,o))) :
    Runs (putCharAccess c) (some (.char bx)) d o (d.setMem (putCell d.mem cell ch)) := by
  have hl : videoLimit = 0x7fff := rfl
  have heven := toNat_shiftLeft_one cell
  have hoff : ((cell <<< 1).setWidth 32).toNat = (cell <<< 1).toNat :=
    BitVec.toNat_setWidth_of_le (by decide)
  have hoff' : ((cell <<< 1).setWidth 32+1).toNat = (cell <<< 1).toNat+1 := by
    rw [← hoff]
    generalize (cell <<< 1).setWidth 32 = off at hoff ⊢
    bv_omega
  refine .step (hchar.trans (bind_of_ok (if_pos (by omega)))) (.single ((hattr _).trans ?_))
  rw [setWidth_shiftLeft_add_one]
  exact bind_of_ok (if_pos (by omega))

theorem char_error {cell : BitVec 16} {ch : BitVec 8} (hfit : ¬(cell <<< 1).toNat ≤ videoLimit)
    (hchar : putCharAccess c (.char bx) d = (d.gsStore8 ((cell <<< 1).setWidth 32) ch >>=
      fun d => .ok (d,some (.attr (cell <<< 1+1))))) :
    putCharAccess c (.char bx) d = .error .protection := by
  have hoff : ((cell <<< 1).setWidth 32).toNat = (cell <<< 1).toNat :=
    BitVec.toNat_setWidth_of_le (by decide)
  rw [hchar,Display.gsStore8,if_neg (by omega)]
  rfl

/-- After the cursor has been read. -/
theorem compare_ends : Ends (putCharAccess c) (Fits bx c)
    (· = d.withCursor (paint d.mem bx c) (advance bx c)) (some (CharPc.compare c bx)) d := by
  unfold CharPc.compare paint advance
  by_cases hcr : c = 0x0d ∨ c = 0x0a
  · have hfeed : Ends (putCharAccess c) (Fits bx c) (· = d.withCursor (feedMem d.mem bx) (feed bx))
        (some (.isLineFeed bx)) d :=
      .lands isLineFeed_runs (fits_of_lineFeed bx hcr)
    rw [if_pos hcr,if_pos hcr]
    obtain h|h := hcr
    · rw [if_pos h]
      exact hfeed
    · rw [if_pos h,ite_self]
      exact hfeed
  · obtain ⟨h₁,h₂⟩ := not_or.mp hcr
    rw [if_neg h₁,if_neg h₂,if_neg hcr,if_neg hcr]
    by_cases hbs : c = 0x08
    · have hfits : Fits bx c ↔ ((bx-1) <<< 1).toNat ≤ videoLimit := by
        rw [Fits,if_neg hcr,if_pos hbs]
      have hchar : putCharAccess c (.char bx) d = (d.gsStore8 (((bx-1) <<< 1).setWidth 32) 0x20 >>=
          fun d => .ok (d,some (.attr ((bx-1) <<< 1+1)))) := by
        rw [putCharAccess,if_pos hbs]
      rw [if_pos hbs,if_pos hbs]
      by_cases hfit : ((bx-1) <<< 1).toNat ≤ videoLimit
      · refine .lands ?_ (hfits.mpr hfit)
        refine (cell_runs (o := some (.setHighIndex ((bx-1) <<< 1 >>> 1))) hfit hchar
          fun d' => ?_).trans setCursor_runs
        simp only [putCharAccess,if_pos hbs,shiftLeft_add_one_shiftRight]
      · exact .error (char_error hfit hchar) fun h => hfit (hfits.mp h)
    · have hfits : Fits bx c ↔ (bx <<< 1).toNat ≤ videoLimit := by
        rw [Fits,if_neg hcr,if_neg hbs]
      have hchar : putCharAccess c (.char bx) d = (d.gsStore8 ((bx <<< 1).setWidth 32) c >>=
          fun d => .ok (d,some (.attr (bx <<< 1+1)))) := by
        rw [putCharAccess,if_neg hbs]
      rw [if_neg hbs,if_neg hbs]
      by_cases hfit : (bx <<< 1).toNat ≤ videoLimit
      · refine .lands ?_ (hfits.mpr hfit)
        refine (cell_runs (o := some (if (behind bx).slt 2000 then .setHighIndex (behind bx)
          else .isLineFeed (behind bx))) hfit hchar fun d' => ?_).trans ?_
        · simp only [putCharAccess,if_neg hbs,shiftLeft_add_one_shiftRight]
          rfl
        · split_ifs
          · exact setCursor_runs
          · exact isLineFeed_runs
      · exact .error (char_error hfit hchar) fun h => hfit (hfits.mp h)

/-- put_char, for every cursor and every character. -/
theorem putChar_ends : Ends (putCharAccess c) (Fits d.vga.cursor c)
    (· = d.withCursor (paint d.mem d.vga.cursor c) (advance d.vga.cursor c))
    (some .getHighIndex) d := by
  have h : Ends (putCharAccess c) (Fits d.vga.cursor c) _
      (some (.compare c d.vga.cursor)) ((d.outIndex 0x0e).outIndex 0x0f) := compare_ends
  exact .of_runs (.step rfl (.step rfl (.step rfl (.single rfl)))) h

/-- The display after a character that fits. -/
theorem Display.withCursor_prints (d : Display) (c : BitVec 8) :
    d.Prints [c] (d.withCursor (paint d.mem d.vga.cursor c) (advance d.vga.cursor c)) :=
  ⟨Vga.cursor_withCursor _ _,fun _ _ => rfl⟩

theorem putChar_calls (l : Link) (caller : PutCharCaller) (cl : BitVec 8) :
    Calls (putCharAccess cl) (printAccess l) (.putChar caller cl) caller.next := fun _ _ => rfl

/-- A character and what the caller of put_char does then. -/
theorem putChar_then {caller : PutCharCaller} {cs : List (BitVec 8)} {P : Display → Prop}
    (hn : ∀ d', d.Prints [c] d' → (∀ x, ¬InVideo x → d'.mem x = d.mem x) →
      Ends (printAccess l) (FitsAll d'.vga.cursor cs) P caller.next d') :
    Ends (printAccess l) (FitsAll d.vga.cursor (c::cs)) P
      (some (.putChar caller c .getHighIndex)) d := by
  refine putChar_ends.call (putChar_calls l caller c) fun hfit d' hd => ?_
  subst hd
  have h := hn _ (d.withCursor_prints c) fun x hx => paint_of_not_span hfit hx
  rwa [Display.withCursor,Vga.cursor_withCursor] at h

theorem goon_ends (cs : List (BitVec 8)) : Ends (printAccess l) (FitsAll d.vga.cursor cs)
    (d.Prints cs) (some (.goon cs)) d := by
  induction cs generalizing d with
  | nil => exact .done (.single rfl) (.refl d)
  | cons c cs ih =>
    refine .of_runs (.single rfl) (putChar_then fun d' hp _ => ?_)
    exact ih.mono fun d'' h => hp.trans h

/-- The digits from the index edi on, of which the first one is in cl. -/
theorem digits_ends (hb : ∀ x, Span l.putIntBuffer 8 x → ¬InVideo x) {rest : List (BitVec 8)}
    {edi : ℕ} (hlen : rest.length = 8-(edi+1))
    (hbytes : BytesAt d.mem (l.putIntBuffer+BitVec.ofNat 32 (edi+1)) rest) :
    Ends (printAccess l) (FitsAll d.vga.cursor (c::rest)) (d.Prints (c::rest))
      (some (.putChar (.putInt edi) c .getHighIndex)) d := by
  induction rest generalizing d c edi with
  | nil =>
    have hend : ¬edi+1 < 8 := by
      simp only [List.length_nil] at hlen
      omega
    refine putChar_then fun d' hp _ => .done (.single ?_) hp
    simp only [printAccess,if_neg hend]
  | cons c' rest ih =>
    have hmore : edi+1 < 8 := by
      simp only [List.length_cons] at hlen
      omega
    refine putChar_then fun d' hp hframe => ?_
    -- the characters of the text memory do not touch the digits in the buffer
    have hbytes' : BytesAt d'.mem (l.putIntBuffer+BitVec.ofNat 32 (edi+1)) (c'::rest) := by
      refine hbytes.congr fun k hk => hframe _ (hb _ ?_)
      simp only [List.length_cons] at hlen hk
      simp only [Span]
      bv_omega
    have hnext : l.putIntBuffer+BitVec.ofNat 32 (edi+1)+1 =
        l.putIntBuffer+BitVec.ofNat 32 (edi+1+1) := by bv_omega
    have hfetch : printAccess l (.fetch (edi+1)) d' =
        .ok (d',some (.putChar (.putInt (edi+1)) c' .getHighIndex)) := by
      simp only [printAccess,if_pos hmore,hbytes'.head]
    refine .of_runs (.single hfetch) ((ih ?_ (hnext ▸ hbytes'.tail)).mono fun d'' h => hp.trans h)
    simp only [List.length_cons] at hlen
    omega

/-- The search for the first digit that is not zero. -/
theorem skipPrefix0_ends (hb : ∀ x, Span l.putIntBuffer 8 x → ¬InVideo x) {ds : List (BitVec 8)}
    {edi : ℕ} (hlen : edi+ds.length = 8)
    (hbytes : BytesAt d.mem (l.putIntBuffer+BitVec.ofNat 32 edi) ds) :
    Ends (printAccess l) (FitsAll d.vga.cursor (stripZeros ds)) (d.Prints (stripZeros ds))
      (some (.skipPrefix0 edi)) d := by
  induction ds generalizing edi with
  | nil =>
    obtain rfl : edi = 8 := hlen
    exact .of_runs (.single rfl) (digits_ends hb rfl fun k hk => absurd hk (Nat.not_lt_zero k))
  | cons c ds ih =>
    simp only [List.length_cons] at hlen
    have hnext : l.putIntBuffer+BitVec.ofNat 32 edi+1 = l.putIntBuffer+BitVec.ofNat 32 (edi+1) := by
      bv_omega
    have htail := hnext ▸ hbytes.tail
    have hstep : printAccess l (.skipPrefix0 edi) d = .ok (d,some (if c = 0x30 then
        .skipPrefix0 (edi+1) else .putChar (.putInt edi) c .getHighIndex)) := by
      simp only [printAccess,if_neg (show ¬edi = 8 by omega),hbytes.head]
    refine .of_runs (.single hstep) ?_
    rw [stripZeros]
    split_ifs
    · exact ih (by omega) htail
    · exact digits_ends hb (by omega) htail

theorem based16_runs {n : Word} {k : ℕ} : Runs (printAccess l) (some (.based16 n k)) d
    (some (.skipPrefix0 0)) (d.setMem (putDigits d.mem l.putIntBuffer n k)) := by
  induction k generalizing d n with
  | zero => exact .single rfl
  | succ k ih => exact .step rfl ih

/-- Every call prints its text, or stops at the first character that has no cell. -/
theorem print_ends (hb : ∀ x, Span l.putIntBuffer 8 x → ¬InVideo x) (call : PrintCall) :
    Ends (printAccess l) (FitsAll d.vga.cursor call.text) (d.Prints call.text)
      (some call.start) d := by
  cases call with
  | putStr str => exact goon_ends str.chars
  | putInt num =>
    have hvideo : ∀ x, InVideo x → putDigits d.mem l.putIntBuffer num 8 x = d.mem x :=
      fun x hx => putDigits_of_not_span (by decide) fun h => hb x h hx
    have hbytes : BytesAt (putDigits d.mem l.putIntBuffer num 8)
        (l.putIntBuffer+BitVec.ofNat 32 0) (hexText num 8) := by
      rw [show l.putIntBuffer+BitVec.ofNat 32 0 = l.putIntBuffer from BitVec.add_zero _]
      exact bytesAt_putDigits (by decide)
    have h := skipPrefix0_ends (d := d.setMem (putDigits d.mem l.putIntBuffer num 8)) hb
      (by simp) hbytes
    refine .of_runs based16_runs (h.mono fun d' hd => ?_)
    exact ⟨hd.cursor,fun x hx => (hd.text x hx).trans (paintAll_congr hvideo hx)⟩
  | putChar chr =>
    exact putChar_then fun d' hp _ => .done (.refl _ _) hp

end Accesses
end OsKernel

import OsKernel.Lib.Stdio
import Mathlib.Data.Nat.Digits.Defs

/-! What vsprintf is for: a format is a list of literal characters and conversions, and each
conversion renders one argument. The code does this in one pass over the format. -/
namespace OsKernel
open ByteMemory

inductive Conversion
  | s | x | d | c
  deriving DecidableEq, Repr

namespace Conversion

def char : Conversion → BitVec 8
  | .s => ascii 's'
  | .x => ascii 'x'
  | .d => ascii 'd'
  | .c => ascii 'c'

def ofChar (b : BitVec 8) : Option Conversion :=
  if b = ascii 's' then some .s
  else if b = ascii 'x' then some .x
  else if b = ascii 'd' then some .d
  else if b = ascii 'c' then some .c
  else none

theorem ofChar_char (k : Conversion) : ofChar k.char = some k := by cases k <;> rfl

theorem eq_char_of_ofChar {b : BitVec 8} {k : Conversion} (h : ofChar b = some k) :
    b = k.char := by
  unfold ofChar at h
  split_ifs at h with hs hx hd hc <;> obtain rfl := Option.some.inj h <;> assumption

theorem ne_char_of_ofChar {b : BitVec 8} (h : ofChar b = none) (k : Conversion) : b ≠ k.char := by
  intro he
  rw [he,ofChar_char] at h
  contradiction

end Conversion

inductive Directive
  | literal (b : BitVec 8)
  | conversion (k : Conversion)
  deriving DecidableEq, Repr

namespace Directive

def bytes : Directive → List (BitVec 8)
  | .literal b => [b]
  | .conversion k => [ascii '%',k.char]

/-- A literal is no percent sign and no zero. -/
def Proper : Directive → Prop
  | .literal b => b ≠ ascii '%' ∧ b ≠ 0
  | .conversion _ => True

end Directive

/-- A percent sign in front of any other character, or at the end, is left out. -/
def parse : List (BitVec 8) → List Directive
  | [] => []
  | b::rest =>
    if b ≠ ascii '%' then .literal b::parse rest
    else match rest with
      | [] => []
      | k::rest' =>
        match Conversion.ofChar k with
        | some k => .conversion k::parse rest'
        | none => parse (k::rest')

inductive Arg
  | str (addr : ℕ) (text : List (BitVec 8))
  | int (value : BitVec 32)
  | chr (b : BitVec 8)

def digitChar (k : ℕ) : BitVec 8 := ascii ("0123456789ABCDEF".toList.getD k ' ')

/-- The digits of a number, the most significant one first. -/
def numeral (base n : ℕ) : List (BitVec 8) :=
  if n = 0 then [digitChar 0] else (Nat.digits base n).reverse.map digitChar

def decimal (value : BitVec 32) : List (BitVec 8) :=
  if value.toInt < 0 then ascii '-'::numeral 10 value.toInt.natAbs
  else numeral 10 value.toInt.natAbs

/-- The text of one argument, when it has the type that the conversion expects. -/
def Arg.render : Conversion → Arg → Option (List (BitVec 8))
  | .s,.str _ text => some text
  | .x,.int value => some (numeral 16 value.toNat)
  | .d,.int value => some (decimal value)
  | .c,.chr b => some [b]
  | _,_ => none

/-- The output for a list of arguments, when it matches the conversions. -/
def render : List Directive → List Arg → Option (List (BitVec 8))
  | [],[] => some []
  | .literal b::ds,args => (render ds args).map (b::·)
  | .conversion k::ds,arg::args =>
    (arg.render k).bind fun text => (render ds args).map (text++·)
  | _,_ => none

/-- The address is not one of the n+1 bytes of the destination. -/
def Apart (str n a : ℕ) : Prop := a < str ∨ str+n < a

/-- The argument lies at p, and is no part of the destination. -/
def ArgAt (mem : ByteMemory) (str n p : ℕ) : Arg → Prop
  | .str addr text => (∀ i, i < 4 → Apart str n (p+i)) ∧ load32 mem p = addr ∧ addr ≠ 0 ∧
      CString mem addr text ∧ ∀ i, i ≤ text.length → Apart str n (addr+i)
  | .int value => (∀ i, i < 4 → Apart str n (p+i)) ∧ load32 mem p = value.toNat
  | .chr b => Apart str n p ∧ mem p = b

/-- The arguments follow each other on the stack. -/
def ArgsAt (mem : ByteMemory) (str n p : ℕ) : List Arg → Prop
  | [] => True
  | arg::args => ArgAt mem str n p arg ∧ ArgsAt mem str n (p+4) args

/-- The memory is the same outside the destination. -/
def SameApart (mem mem' : ByteMemory) (str n : ℕ) : Prop := ∀ a, Apart str n a → mem' a = mem a

section Same
variable {mem mem' : ByteMemory} {text : List (BitVec 8)} {args : List Arg} {arg : Arg}
  {str n a : ℕ}

theorem SameApart.load32 (h : SameApart mem mem' str n) (ha : ∀ i, i < 4 → Apart str n (a+i)) :
    ByteMemory.load32 mem' a = ByteMemory.load32 mem a := by
  apply load32_congr
  intro q h₁ h₂
  have hq := ha (q-a) (by omega)
  rw [Nat.add_sub_cancel' h₁] at hq
  exact h q hq

theorem SameApart.cString (h : SameApart mem mem' str n) (ht : CString mem a text)
    (ha : ∀ i, i ≤ text.length → Apart str n (a+i)) : CString mem' a text := by
  refine ht.congr fun p h₁ h₂ => ?_
  have hp := ha (p-a) (by omega)
  rw [Nat.add_sub_cancel' h₁] at hp
  exact h p hp

theorem SameApart.argAt (h : SameApart mem mem' str n) (ha : ArgAt mem str n a arg) :
    ArgAt mem' str n a arg := by
  cases arg with
  | str addr text =>
    obtain ⟨hslot,haddr,hne,htext,hout⟩ := ha
    exact ⟨hslot,(h.load32 hslot).trans haddr,hne,h.cString htext hout,hout⟩
  | int value =>
    obtain ⟨hslot,hvalue⟩ := ha
    exact ⟨hslot,(h.load32 hslot).trans hvalue⟩
  | chr b =>
    obtain ⟨hslot,hb⟩ := ha
    exact ⟨hslot,(h a hslot).trans hb⟩

theorem SameApart.argsAt (h : SameApart mem mem' str n) (ha : ArgsAt mem str n a args) :
    ArgsAt mem' str n a args := by
  induction args generalizing a with
  | nil => trivial
  | cons arg args ih => exact ⟨h.argAt ha.1,ih ha.2⟩

end Same

/-- The reference memory after a conversion with its output up to p: strcpy has ended its copy. -/
def Conversion.leave (mem : ByteMemory) (p : ℕ) : Conversion → ByteMemory
  | .s => store8 mem p 0
  | .x | .d | .c => mem

theorem Conversion.leave_sameApart {mem : ByteMemory} {str n p : ℕ} (k : Conversion)
    (h : str ≤ p) (hp : p ≤ str+n) : SameApart mem (k.leave mem p) str n := by
  intro a ha
  unfold Apart at ha
  cases k with
  | s => exact store8_of_ne (by omega)
  | x => rfl
  | d => rfl
  | c => rfl

section Render
variable {ds : List Directive} {args : List Arg} {out : List (BitVec 8)} {b : BitVec 8}
  {k : Conversion}

theorem render_nil (h : render [] args = some out) : args = [] ∧ out = [] := by
  cases args with
  | nil => exact ⟨rfl,(Option.some.inj h).symm⟩
  | cons arg args => cases h

theorem render_literal (h : render (.literal b::ds) args = some out) :
    ∃ out', render ds args = some out' ∧ out = b::out' := by
  rw [render] at h
  obtain ⟨out',hr,rfl⟩ := Option.map_eq_some_iff.mp h
  exact ⟨out',hr,rfl⟩

theorem render_conversion (h : render (.conversion k::ds) args = some out) :
    ∃ arg args' text out', args = arg::args' ∧ arg.render k = some text ∧
      render ds args' = some out' ∧ out = text++out' := by
  cases args with
  | nil => cases h
  | cons arg args' =>
    rw [render] at h
    obtain ⟨text,ht,h⟩ := Option.bind_eq_some_iff.mp h
    obtain ⟨out',hr,rfl⟩ := Option.map_eq_some_iff.mp h
    exact ⟨arg,args',text,out',rfl,ht,hr,rfl⟩

theorem numeral_ne_nil (base v : ℕ) : numeral base v ≠ [] := by
  unfold numeral
  split
  · exact List.cons_ne_nil _ _
  · rw [Ne,List.map_eq_nil_iff,List.reverse_eq_nil_iff]
    exact Nat.digits_ne_nil_iff_ne_zero.mpr ‹_›

theorem decimal_ne_nil (value : BitVec 32) : decimal value ≠ [] := by
  unfold decimal
  split
  · exact List.cons_ne_nil _ _
  · exact numeral_ne_nil 10 _

theorem Arg.render_ne_nil {arg : Arg} {text : List (BitVec 8)} (h : arg.render k = some text)
    (hk : k ≠ .s) : text ≠ [] := by
  cases k <;> cases arg <;> cases h
  · exact absurd rfl hk
  · exact numeral_ne_nil 16 _
  · exact decimal_ne_nil _
  · exact List.cons_ne_nil _ _

theorem getLast_literal : (Directive.literal b::ds).getLast? = some (.conversion .s) ↔
    ds.getLast? = some (.conversion .s) := by
  rw [List.getLast?_cons]
  cases ds.getLast? <;> simp

/-- Every literal and every conversion other than %s puts out a character. -/
theorem render_ne_nil (h : render ds args = some out) (hne : ds ≠ [])
    (hlast : ds.getLast? ≠ some (.conversion .s)) : out ≠ [] := by
  induction ds generalizing args out with
  | nil => exact absurd rfl hne
  | cons d ds ih =>
    have htail {args' : List Arg} {out' : List (BitVec 8)} (hr : render ds args' = some out')
        (hds : ds ≠ []) : out' ≠ [] :=
      ih hr hds fun he => hlast (by rw [List.getLast?_cons,he]; rfl)
    cases d with
    | literal b =>
      obtain ⟨out',-,rfl⟩ := render_literal h
      exact List.cons_ne_nil _ _
    | conversion k =>
      obtain ⟨arg,args',text,out',rfl,htext,hr,rfl⟩ := render_conversion h
      intro he
      obtain ⟨htext',hout⟩ := List.append_eq_nil_iff.mp he
      by_cases hds : ds = []
      · subst hds
        refine Arg.render_ne_nil htext (fun hk => hlast ?_) htext'
        rw [hk]
        rfl
      · exact htail hr hds hout

end Render

section Reference
variable {ds : List Directive} {base v : ℕ}

theorem parse_literal {b : BitVec 8} (hb : b ≠ ascii '%') (rest : List (BitVec 8)) :
    parse (b::rest) = .literal b::parse rest := by
  cases rest <;> rw [parse.eq_def] <;> simp only [if_pos hb]

theorem parse_conversion {b : BitVec 8} {k : Conversion} (hk : Conversion.ofChar b = some k)
    (rest : List (BitVec 8)) : parse (ascii '%'::b::rest) = .conversion k::parse rest := by
  rw [parse,if_neg (not_not.mpr rfl)]
  simp only [hk]

theorem parse_unknown {b : BitVec 8} (hb : Conversion.ofChar b = none) (rest : List (BitVec 8)) :
    parse (ascii '%'::b::rest) = parse (b::rest) := by
  rw [parse,if_neg (not_not.mpr rfl)]
  simp only [hb]

/-- Parsing gives back the directives that a format has been made of. -/
theorem parse_bytes (h : ∀ d ∈ ds, d.Proper) : parse (ds.flatMap Directive.bytes) = ds := by
  induction ds with
  | nil => rfl
  | cons d ds ih =>
    have htail := ih fun e he => h e (List.mem_cons_of_mem _ he)
    cases d with
    | literal b =>
      obtain ⟨hb,-⟩ := h _ List.mem_cons_self
      rw [List.flatMap_cons,Directive.bytes,List.cons_append,List.nil_append,parse_literal hb,htail]
    | conversion k =>
      rw [List.flatMap_cons,Directive.bytes,List.cons_append,List.cons_append,List.nil_append,
        parse_conversion k.ofChar_char,htail]

/-- The last digit of a number comes after the digits of its quotient. -/
theorem numeral_eq (hb : 1 < base) (v : ℕ) : numeral base v =
    (if v/base = 0 then [] else numeral base (v/base))++[digitChar (v % base)] := by
  by_cases hv : v = 0
  · subst hv
    simp [numeral]
  · rw [numeral,if_neg hv,Nat.digits_def' hb (Nat.pos_of_ne_zero hv)]
    by_cases hq : v/base = 0
    · simp [hq]
    · simp [hq,numeral]

theorem digitChar_eq {m : ℕ} (hm : m < 16) : digitChar m =
    if m < 10 then BitVec.ofNat 8 (m+ '0'.toNat) else BitVec.ofNat 8 (m+ 'A'.toNat-10) := by
  interval_cases m <;> rfl

theorem digitChar_ne_zero {m : ℕ} (hm : m < 16) : digitChar m ≠ 0 := by
  interval_cases m <;> decide

theorem numeral_ne_zero (hb : 1 < base) (hle : base ≤ 16) : ∀ b ∈ numeral base v, b ≠ 0 := by
  intro b hmem
  unfold numeral at hmem
  split at hmem
  · obtain rfl := List.mem_singleton.mp hmem
    decide
  · obtain ⟨m,hm,rfl⟩ := List.mem_map.mp hmem
    have hlt := Nat.digits_lt_base hb (List.mem_reverse.mp hm)
    exact digitChar_ne_zero (by omega)

theorem decimal_ne_zero (value : BitVec 32) : ∀ b ∈ decimal value, b ≠ 0 := by
  unfold decimal
  split
  · intro b hb
    rcases List.mem_cons.mp hb with rfl | hb
    · decide
    · exact numeral_ne_zero (by decide) (by decide) b hb
  · exact numeral_ne_zero (by decide) (by decide)

/-- itoa writes the numeral. -/
theorem itoa_eq (hb : 1 < base) (hle : base ≤ 16) (v : ℕ) (buf : Buffer) : itoa base hb v buf =
    ⟨write buf.mem buf.ptr (numeral base v),buf.ptr+(numeral base v).length⟩ := by
  induction v using Nat.strong_induction_on with
  | _ v ih =>
    have hlt : v % base < 16 := lt_of_lt_of_le (Nat.mod_lt _ (by omega)) hle
    have hput (b : Buffer) : (if v % base < 10 then b.put (BitVec.ofNat 8 (v % base+ '0'.toNat))
        else b.put (BitVec.ofNat 8 (v % base+ 'A'.toNat-10))) = b.put (digitChar (v % base)) := by
      rw [digitChar_eq hlt]
      split <;> rfl
    rw [itoa]
    simp only [hput]
    rw [numeral_eq hb v]
    by_cases hq : v/base = 0
    · simp [hq,Buffer.put,write]
    · have hv : 0 < v := Nat.pos_of_ne_zero fun he => hq (by simp [he])
      rw [dif_pos hq,if_neg hq,ih _ (Nat.div_lt_self hv hb),write_append]
      simp [Buffer.put,write,Nat.add_assoc]

/-- A negative number is printed as a minus sign and its two's complement. -/
theorem decimal_eq (value : BitVec 32) : decimal value =
    if 2^31 ≤ value.toNat then ascii '-'::numeral 10 ((2^32-value.toNat) % 2^32)
    else numeral 10 value.toNat := by
  have hlt := value.isLt
  by_cases h : 2^31 ≤ value.toNat
  · have hint : value.toInt = value.toNat-2^32 := by
      rw [BitVec.toInt_eq_toNat_cond,if_neg (by omega)]
      norm_num
    have habs : value.toInt.natAbs = (2^32-value.toNat) % 2^32 := by omega
    rw [decimal,if_pos (by omega),if_pos h,habs]
  · have hint : value.toInt = value.toNat := by
      rw [BitVec.toInt_eq_toNat_cond,if_pos (by omega)]
    have habs : value.toInt.natAbs = value.toNat := by omega
    rw [decimal,if_neg (by omega),if_neg h,habs]

end Reference
end OsKernel

import OsKernel.Lib.Format

/-! One pass of vsprintf over its format renders the directives one after the other. The memory
is at all times an old one with the output so far written to the destination, where only strcpy
leaves a zero behind the output. -/
namespace OsKernel
open ByteMemory

section Apart
variable {str n a k : ℕ}

theorem Apart.not_mem {l : List (BitVec 8)} (h : Apart str n a) (hl : l.length ≤ n) :
    a < str ∨ str+l.length ≤ a := by
  unfold Apart at h
  omega

/-- A stretch of bytes apart from the destination lies on one side of it. -/
theorem apart_range (h : ∀ i, i ≤ k → Apart str n (a+i)) : a+k < str ∨ str+n < a := by
  by_contra hc
  push Not at hc
  by_cases ha : a ≤ str
  · have hs := h (str-a) (by omega)
    unfold Apart at hs
    omega
  · have hs := h 0 (Nat.zero_le _)
    unfold Apart at hs
    omega

end Apart

namespace Vsprintf

/-- The output so far is done; fmt and args are what is left of the format and the arguments. -/
structure At (mem : ByteMemory) (str n : ℕ) (s : Vsprintf) (done fmt : List (BitVec 8))
    (args : List Arg) : Prop where
  buf : s.buf = ⟨write mem str done,str+done.length⟩
  char : s.indexChar = mem s.indexPtr
  format : CString mem s.indexPtr fmt
  apart : ∀ i, i ≤ fmt.length → Apart str n (s.indexPtr+i)
  args : ArgsAt mem str n (s.ap+4) args

section Steps
variable {mem : ByteMemory} {str n rounds : ℕ} {s : Vsprintf} {done fmt text : List (BitVec 8)}
  {args : List Arg} {arg : Arg} {b : BitVec 8} {k : Conversion}

/-- More output, and the next character of the format. -/
def emit (s : Vsprintf) (mem : ByteMemory) (str ap : ℕ) (done : List (BitVec 8)) : Vsprintf :=
  { s with buf := ⟨write mem str done,str+done.length⟩, ap := ap }.fetch

theorem At.emit {mem' : ByteMemory} {args' : List Arg} {ap : ℕ}
    (h : At mem str n s done (b::fmt) args) (hm : SameApart mem mem' str n)
    (hn : (done++text).length ≤ n) (ha : ArgsAt mem str n (ap+4) args') :
    At mem' str n (s.emit mem' str ap (done++text)) (done++text) fmt args' := by
  have hnext := h.apart 1 (by simp)
  refine ⟨rfl,?_,hm.cString h.format.tail fun i hi => ?_,fun i hi => ?_,hm.argsAt ha⟩
  · exact write_of_not_mem (hnext.not_mem hn)
  · have hi := h.apart (i+1) (by simp only [List.length_cons]; omega)
    rwa [show s.indexPtr+(i+1) = s.indexPtr+1+i by omega] at hi
  · have hi := h.apart (i+1) (by simp only [List.length_cons]; omega)
    rwa [show s.indexPtr+(i+1) = s.indexPtr+1+i by omega] at hi

theorem At.fetch (h : At mem str n s done (b::fmt) args) (hn : done.length ≤ n) :
    At mem str n s.fetch done fmt args := by
  have he : At mem str n (s.emit mem str s.ap (done++[])) (done++[]) fmt args :=
    h.emit (fun _ _ => rfl) (by simpa using hn) h.args
  have hs : s.emit mem str s.ap (done++[]) = s.fetch := by
    rw [Vsprintf.emit,List.append_nil,← h.buf]
  rwa [hs,List.append_nil] at he

theorem At.load32 (h : At mem str n s done fmt args) (hn : done.length ≤ n) {p : ℕ}
    (hp : ∀ i, i < 4 → Apart str n (p+i)) :
    ByteMemory.load32 s.buf.mem p = ByteMemory.load32 mem p := by
  rw [h.buf]
  apply load32_congr
  intro q h₁ h₂
  apply write_of_not_mem
  have hq := hp (q-p) (by omega)
  rw [Nat.add_sub_cancel' h₁] at hq
  exact hq.not_mem hn

/-- The zero that strcpy writes behind its copy. -/
theorem write_zero : write (write mem str done) (str+done.length) (text++[0]) =
    write (Conversion.s.leave mem (str+(done++text).length)) str (done++text) := by
  rw [← write_append,← List.append_assoc,write_append]
  exact store8_write_of_not_mem (.inr le_rfl)

/-- A conversion renders its argument. -/
theorem At.convert (h : At mem str n s done (k.char::fmt) (arg::args)) (hstr : str ≠ 0)
    (hr : arg.render k = some text) (hn : (done++text).length ≤ n) (hrounds : n < rounds) :
    s.convert rounds = .ok
      (s.emit (k.leave mem (str+(done++text).length)) str (s.ap+4) (done++text)) := by
  have hlen : done.length+text.length ≤ n := by simpa using hn
  have hchar : s.indexChar = k.char := h.char.trans h.format.head
  obtain ⟨harg,-⟩ := h.args
  have hbuf (t : List (BitVec 8)) : (⟨write (write mem str done) (str+done.length) t,
      str+done.length+t.length⟩ : Buffer) = ⟨write mem str (done++t),str+(done++t).length⟩ := by
    rw [write_append,List.length_append,Nat.add_assoc]
  cases k with
  | s =>
    cases arg with
    | str addr t =>
      obtain rfl : t = text := Option.some.inj hr
      obtain ⟨hslot,haddr,hne,hstring,hout⟩ := harg
      have hs : CString s.buf.mem addr t := hstring.congr fun p h₁ h₂ => by
        rw [h.buf]
        have hp := hout (p-addr) (by omega)
        rw [Nat.add_sub_cancel' h₁] at hp
        exact write_of_not_mem (hp.not_mem (by omega))
      have hside := apart_range hout
      have hleave : SameApart mem (Conversion.s.leave mem (str+(done++t).length)) str n :=
        Conversion.s.leave_sameApart (Nat.le_add_right _ _) (by omega)
      have hcopy : strcpy s.buf.mem s.buf.ptr addr rounds =
          .ok (write (Conversion.s.leave mem (str+(done++t).length)) str (done++t)) := by
        have hptr : s.buf.ptr = str+done.length := by rw [h.buf]
        rw [strcpy_eq hs (by omega) (by omega) (by omega) hne,h.buf,write_zero]
      have hs' : CString (write (Conversion.s.leave mem (str+(done++t).length)) str (done++t))
          addr t := (hleave.cString hstring hout).congr fun p h₁ h₂ => by
        have hp := hout (p-addr) (by omega)
        rw [Nat.add_sub_cancel' h₁] at hp
        exact write_of_not_mem (hp.not_mem hn)
      simp only [Vsprintf.convert,hchar,Conversion.char,if_true,h.load32 (by omega) hslot,haddr]
      rw [hcopy,bind_of_ok rfl,strlen_eq hs' (by omega) hne,bind_of_ok rfl]
      have hptr : s.buf.ptr+t.length = str+(done++t).length := by
        rw [h.buf,List.length_append,Nat.add_assoc]
      rw [hptr]
      rfl
    | int value => cases hr
    | chr c => cases hr
  | x =>
    cases arg with
    | str addr t => cases hr
    | int value =>
      obtain rfl := Option.some.inj hr
      obtain ⟨hslot,hvalue⟩ := harg
      have hs : ascii 'x' ≠ ascii 's' := by decide
      simp only [Vsprintf.convert,hchar,Conversion.char,if_neg hs,if_true,
        h.load32 (by omega) hslot,hvalue]
      rw [itoa_eq (by decide) (by decide),h.buf,hbuf]
      rfl
    | chr c => cases hr
  | d =>
    cases arg with
    | str addr t => cases hr
    | int value =>
      obtain rfl := Option.some.inj hr
      obtain ⟨hslot,hvalue⟩ := harg
      have hs : ascii 'd' ≠ ascii 's' := by decide
      have hx : ascii 'd' ≠ ascii 'x' := by decide
      simp only [Vsprintf.convert,hchar,Conversion.char,if_neg hs,if_neg hx,if_true,
        h.load32 (by omega) hslot,hvalue]
      have hdecimal : (if 2^31 ≤ value.toNat then
          itoa 10 (by decide) ((2^32-value.toNat) % 2^32) (s.buf.put (ascii '-'))
          else itoa 10 (by decide) value.toNat s.buf) =
          ⟨write mem str (done++decimal value),str+(done++decimal value).length⟩ := by
        rw [decimal_eq,h.buf,← hbuf]
        split
        · rw [itoa_eq (by decide) (by decide),List.length_cons,
            Nat.add_comm (numeral 10 _).length 1,← Nat.add_assoc]
          rfl
        · rw [itoa_eq (by decide) (by decide)]
      rw [hdecimal]
      rfl
    | chr c => cases hr
  | c =>
    cases arg with
    | str addr t => cases hr
    | int value => cases hr
    | chr c =>
      obtain rfl := Option.some.inj hr
      obtain ⟨hslot,hvalue⟩ := harg
      have hs : ascii 'c' ≠ ascii 's' := by decide
      have hx : ascii 'c' ≠ ascii 'x' := by decide
      have hd : ascii 'c' ≠ ascii 'd' := by decide
      have hread : s.buf.mem (s.ap+4) = c := by
        rw [h.buf,← hvalue]
        exact write_of_not_mem (hslot.not_mem (by omega))
      simp only [Vsprintf.convert,hchar,Conversion.char,if_neg hs,if_neg hx,if_neg hd,if_true,hread]
      have hput : s.buf.put c = ⟨write mem str (done++[c]),str+(done++[c]).length⟩ := by
        rw [← hbuf,h.buf]
        rfl
      rw [hput]
      rfl

theorem convert_unknown (h : ∀ k : Conversion, s.indexChar ≠ k.char) :
    s.convert rounds = .ok s := by
  have hs : s.indexChar ≠ ascii 's' := h .s
  have hx : s.indexChar ≠ ascii 'x' := h .x
  have hd : s.indexChar ≠ ascii 'd' := h .d
  have hc : s.indexChar ≠ ascii 'c' := h .c
  simp only [Vsprintf.convert,if_neg hs,if_neg hx,if_neg hd,if_neg hc]

end Steps

section Runs
variable {mem : ByteMemory} {str n rounds : ℕ} {s s' : Vsprintf}
  {done fmt out : List (BitVec 8)} {args : List Arg} {b : BitVec 8}

/-- The loop has written out, taken the arguments and read the rest of the format. -/
structure Finished (mem : ByteMemory) (str : ℕ) (s : Vsprintf) (done fmt out : List (BitVec 8))
    (args : List Arg) (s' : Vsprintf) : Prop where
  mem : s'.buf.mem = write mem str (done++out)
  ap : s'.ap = s.ap+4*args.length
  fetched : s'.fetched = s.fetched++List.range' (s.indexPtr+1) fmt.length

/-- One more character of the format in front. -/
theorem Finished.fetch {fmt' : List (BitVec 8)} (h : Finished mem str s.fetch done fmt out args s')
    (hf : fmt'.length = fmt.length+1) : Finished mem str s done fmt' out args s' := by
  refine ⟨h.mem,h.ap,h.fetched.trans ?_⟩
  rw [hf,List.range'_succ]
  simp [Vsprintf.fetch]

theorem Finished.emit {mem₀ : ByteMemory} {text fmt' : List (BitVec 8)} {args' : List Arg} {ap : ℕ}
    (h : Finished mem str (s.emit mem₀ str ap (done++text)) (done++text) fmt out args s')
    (ha : ap+4*args.length = s.ap+4*args'.length) (hf : fmt'.length = fmt.length+1) :
    Finished mem str s done fmt' (text++out) args' s' := by
  refine ⟨by rw [h.mem,List.append_assoc],h.ap.trans ha,h.fetched.trans ?_⟩
  rw [hf,List.range'_succ]
  simp [Vsprintf.emit,Vsprintf.fetch]

theorem loop_succ_of_percent (h : s.indexChar = ascii '%') :
    s.loop (rounds+1) = s.fetch.convert rounds >>= fun s => loop s rounds := by
  have h0 : s.indexChar ≠ 0 := by
    rw [h]
    decide
  rw [Vsprintf.loop,if_neg h0,if_neg (not_not.mpr h)]

/-- Only the zero of a last %s is still there at the end of the output. -/
theorem leave_left {k : Conversion} {ds : List Directive} {p : ℕ}
    (hr : render ds args = some out) :
    (if ds.getLast? = some (.conversion .s) then 0 else k.leave mem p (p+out.length)) =
      if (Directive.conversion k::ds).getLast? = some (.conversion .s) then 0
      else mem (p+out.length) := by
  by_cases hds : ds = []
  · subst hds
    obtain ⟨-,rfl⟩ := render_nil hr
    cases k with
    | s => exact Function.update_self ..
    | x => rfl
    | d => rfl
    | c => rfl
  · rw [List.getLast?_cons_of_ne_nil hds]
    split
    · rfl
    · have hout := List.length_pos_of_ne_nil (render_ne_nil hr hds ‹_›)
      cases k with
      | s => exact store8_of_ne (by omega)
      | x => rfl
      | d => rfl
      | c => rfl

/-- The loop renders what is left of the format. The byte behind the output is an old one, unless
a last %s has put its zero there. -/
theorem At.loop (h : At mem str n s done fmt args) (hstr : str ≠ 0)
    (hr : render (parse fmt) args = some out) (hn : (done++out).length ≤ n)
    (hrounds : fmt.length+n < rounds) :
    ∃ s' mem', s.loop rounds = .ok s' ∧ Finished mem' str s done fmt out args s' ∧
      SameApart mem mem' str n ∧ mem' (str+(done++out).length) =
        if (parse fmt).getLast? = some (.conversion .s) then 0
        else mem (str+(done++out).length) := by
  have hlen : done.length ≤ n := by
    rw [List.length_append] at hn
    omega
  induction fmt using parse.induct generalizing mem s done args out rounds with
  | case1 =>
    obtain ⟨rfl,rfl⟩ := render_nil hr
    obtain ⟨rounds,rfl⟩ := Nat.exists_eq_succ_of_ne_zero (Nat.ne_of_gt (Nat.zero_lt_of_lt hrounds))
    have hend : s.indexChar = 0 := h.char.trans h.format.end
    refine ⟨s,mem,by rw [Vsprintf.loop,if_pos hend],⟨?_,rfl,by simp⟩,fun _ _ => rfl,rfl⟩
    rw [h.buf,List.append_nil]
  | case2 b rest hb ih =>
    rw [parse_literal hb] at hr
    obtain ⟨out',hr',rfl⟩ := render_literal hr
    obtain ⟨rounds,rfl⟩ := Nat.exists_eq_succ_of_ne_zero (Nat.ne_of_gt (Nat.zero_lt_of_lt hrounds))
    simp only [List.length_append,List.length_cons] at hn hrounds
    have hchar : s.indexChar = b := h.char.trans h.format.head
    have hput : s.buf.put b = ⟨write mem str (done++[b]),str+(done++[b]).length⟩ := by
      rw [h.buf,write_append,List.length_append,← Nat.add_assoc]
      rfl
    have hstep : s.loop (rounds+1) =
        Vsprintf.loop (s.emit mem str s.ap (done++[b])) rounds := by
      rw [Vsprintf.loop,if_neg (by rw [hchar]; exact h.format.ne_zero),hchar,if_pos hb,hput]
      rfl
    have hnext : (done++[b]).length ≤ n := by simp; omega
    have hrest : rest.length+n < rounds := by omega
    obtain ⟨s',mem',hs,hf,hsame,hleft⟩ :=
      ih (h.emit (fun _ _ => rfl) hnext h.args) hr' (by simp; omega) hrest hnext
    rw [List.append_cons done b out',parse_literal hb,hstep]
    have hfin : Finished mem' str s done (b::rest) ([b]++out') args s' := hf.emit rfl rfl
    refine ⟨s',mem',hs,hfin,hsame,hleft.trans ?_⟩
    simp only [getLast_literal]
  | case3 b hb =>
    obtain rfl := not_not.mp hb
    obtain ⟨rfl,rfl⟩ := render_nil hr
    obtain ⟨rounds,rfl⟩ := Nat.exists_eq_add_of_le' (show 2 ≤ rounds by simp at hrounds; omega)
    have hf := h.fetch hlen
    have hend : s.fetch.indexChar = 0 := hf.char.trans hf.format.end
    have hconvert : s.fetch.convert (rounds+1) = .ok s.fetch := by
      apply convert_unknown
      intro k
      rw [hend]
      cases k <;> decide
    rw [loop_succ_of_percent (h.char.trans h.format.head),hconvert,bind_of_ok rfl,Vsprintf.loop,
      if_pos hend]
    refine ⟨_,mem,rfl,⟨?_,rfl,rfl⟩,fun _ _ => rfl,rfl⟩
    rw [hf.buf,List.append_nil]
  | case4 b hb c rest k hk ih =>
    obtain rfl := not_not.mp hb
    obtain rfl := Conversion.eq_char_of_ofChar hk
    rw [parse_conversion hk] at hr
    obtain ⟨arg,args',text,out',rfl,htext,hr',rfl⟩ := render_conversion hr
    obtain ⟨rounds,rfl⟩ := Nat.exists_eq_succ_of_ne_zero (Nat.ne_of_gt (Nat.zero_lt_of_lt hrounds))
    simp only [List.length_append,List.length_cons] at hn hrounds
    have hf := h.fetch hlen
    have hnext : (done++text).length ≤ n := by simp; omega
    have hrest : rest.length+n < rounds := by omega
    have hleave : SameApart mem (k.leave mem (str+(done++text).length)) str n :=
      k.leave_sameApart (Nat.le_add_right _ _) (Nat.add_le_add_left hnext str)
    rw [loop_succ_of_percent (h.char.trans h.format.head),
      hf.convert hstr htext hnext (by omega),bind_of_ok rfl]
    obtain ⟨s',mem',hs,hfin,hsame,hleft⟩ :=
      ih (hf.emit hleave hnext hf.args.2) hr' (by simp; omega) hrest hnext
    refine ⟨s',mem',hs,(hfin.emit ?_ rfl).fetch rfl,
      fun a ha => (hsame a ha).trans (hleave a ha),?_⟩
    · rw [List.length_cons]
      omega
    · rw [← List.append_assoc,hleft,@List.length_append _ (done++text),← Nat.add_assoc,
        parse_conversion hk]
      exact leave_left hr'
  | case5 b hb c rest hc ih =>
    obtain rfl := not_not.mp hb
    rw [parse_unknown hc] at hr
    obtain ⟨rounds,rfl⟩ := Nat.exists_eq_succ_of_ne_zero (Nat.ne_of_gt (Nat.zero_lt_of_lt hrounds))
    simp only [List.length_cons] at hrounds
    have hf := h.fetch hlen
    have hconvert : s.fetch.convert rounds = .ok s.fetch := by
      apply convert_unknown
      intro k
      rw [hf.char,hf.format.head]
      exact Conversion.ne_char_of_ofChar hc k
    rw [loop_succ_of_percent (h.char.trans h.format.head),hconvert,bind_of_ok rfl]
    have hrest : (c::rest).length+n < rounds := by simp; omega
    obtain ⟨s',mem',hs,hfin,hsame,hleft⟩ := ih hf hr hn hrest hlen
    rw [parse_unknown hc]
    exact ⟨s',mem',hs,hfin.fetch rfl,hsame,hleft⟩

end Runs
end Vsprintf

section Results
variable {mem : ByteMemory} {str format ap rounds : ℕ} {fmt out : List (BitVec 8)}
  {args : List Arg} {ds : List Directive}

theorem parse_literal_mem {b : BitVec 8} (h : Directive.literal b ∈ parse fmt) : b ∈ fmt := by
  induction fmt using parse.induct with
  | case1 => simp [parse] at h
  | case2 c rest hc ih =>
    rw [parse_literal hc] at h
    rcases List.mem_cons.mp h with h | h
    · obtain rfl := Directive.literal.inj h
      exact List.mem_cons_self
    · exact List.mem_cons_of_mem _ (ih h)
  | case3 c hc =>
    obtain rfl := not_not.mp hc
    simp [parse] at h
  | case4 c hc d rest k hk ih =>
    obtain rfl := not_not.mp hc
    rw [parse_conversion hk] at h
    rcases List.mem_cons.mp h with h | h
    · cases h
    · exact List.mem_cons_of_mem _ (List.mem_cons_of_mem _ (ih h))
  | case5 c hc d rest hd ih =>
    obtain rfl := not_not.mp hc
    rw [parse_unknown hd] at h
    exact List.mem_cons_of_mem _ (ih h)

/-- The text of an argument has no zero in it. -/
theorem ArgAt.render_ne_zero {n p : ℕ} {arg : Arg} {k : Conversion} {text : List (BitVec 8)}
    (h : ArgAt mem str n p arg) (hc : ∀ c, arg = .chr c → c ≠ 0)
    (hr : arg.render k = some text) : ∀ b ∈ text, b ≠ 0 := by
  cases k <;> cases arg <;> cases hr
  · exact h.2.2.2.1.nonzero
  · exact numeral_ne_zero (by decide) (by decide)
  · exact decimal_ne_zero _
  · intro b hb
    obtain rfl := List.mem_singleton.mp hb
    exact hc b rfl

/-- The output has no zero in it. -/
theorem render_ne_zero {n p : ℕ} (hds : ∀ b, Directive.literal b ∈ ds → b ≠ 0)
    (h : ArgsAt mem str n p args) (hc : ∀ c, Arg.chr c ∈ args → c ≠ 0)
    (hr : render ds args = some out) : ∀ b ∈ out, b ≠ 0 := by
  induction ds generalizing args out p with
  | nil =>
    obtain ⟨-,rfl⟩ := render_nil hr
    simp
  | cons d ds ih =>
    have htail : ∀ b, Directive.literal b ∈ ds → b ≠ 0 := fun b hb =>
      hds b (List.mem_cons_of_mem _ hb)
    intro b hb
    cases d with
    | literal c =>
      obtain ⟨out',hr',rfl⟩ := render_literal hr
      rcases List.mem_cons.mp hb with rfl | hb
      · exact hds b List.mem_cons_self
      · exact ih htail h hc hr' b hb
    | conversion k =>
      obtain ⟨arg,args',text,out',rfl,htext,hr',rfl⟩ := render_conversion hr
      rcases List.mem_append.mp hb with hb | hb
      · exact h.1.render_ne_zero (fun c he => hc c (he ▸ List.mem_cons_self)) htext b hb
      · exact ih htail h.2 (fun c hm => hc c (List.mem_cons_of_mem _ hm)) hr' b hb

/-- vsprintf renders every format with matching arguments, reads the format up to its zero only,
and returns the length of the text. -/
theorem vsprintf_renders (hfmt : CString mem format fmt)
    (happ : ∀ i, i ≤ fmt.length → Apart str out.length (format+i))
    (hargs : ArgsAt mem str out.length (ap+4) args) (hr : render (parse fmt) args = some out)
    (hstr : str ≠ 0) (hz : ∀ i, i ≤ out.length → mem (str+i) = 0)
    (hrounds : fmt.length+out.length < rounds) :
    (∀ ds : List Directive, (∀ d ∈ ds, d.Proper) → parse (ds.flatMap Directive.bytes) = ds) ∧
    ∃ s, Vsprintf.loop ⟨⟨mem,str⟩,format,mem format,ap,[format]⟩ rounds = .ok s ∧
      s.ap = ap+4*args.length ∧ (∀ a ∈ s.fetched, format ≤ a ∧ a ≤ format+fmt.length) ∧
      Bytes s.buf.mem str (out++[0]) ∧ (∀ a, Apart str out.length a → s.buf.mem a = mem a) ∧
      ((∀ c, Arg.chr c ∈ args → c ≠ 0) →
        vsprintf mem str format ap rounds = .ok (out.length,s) ∧ CString s.buf.mem str out) := by
  have hat : Vsprintf.At mem str out.length ⟨⟨mem,str⟩,format,mem format,ap,[format]⟩ [] fmt args :=
    ⟨rfl,rfl,hfmt,happ,hargs⟩
  obtain ⟨s,mem',hs,hfin,hsame,hleft⟩ := hat.loop hstr hr (by simp) hrounds
  have hmem : s.buf.mem = write mem' str out := hfin.mem
  have hzero : mem' (str+out.length) = 0 := by
    rw [List.nil_append,hz _ le_rfl,ite_self] at hleft
    exact hleft
  refine ⟨fun ds hds => parse_bytes hds,s,hs,hfin.ap,fun a ha => ?_,?_,fun a ha => ?_,
    fun hc => ?_⟩
  · rw [hfin.fetched,List.mem_append,List.mem_singleton,List.mem_range'_1] at ha
    dsimp only at ha
    omega
  · rw [hmem]
    refine bytes_append.mpr ⟨bytes_write,?_,trivial⟩
    rw [write_of_not_mem (by omega),hzero]
  · rw [hmem]
    exact (write_of_not_mem (ha.not_mem le_rfl)).trans (hsame a ha)
  · have hne : ∀ b ∈ out, b ≠ 0 :=
      render_ne_zero (fun b hb => hfmt.nonzero b (parse_literal_mem hb)) hargs hc hr
    have htext : CString s.buf.mem str out := hmem ▸ cString_write hzero hne
    refine ⟨?_,htext⟩
    rw [vsprintf,hs,bind_of_ok rfl,strlen_eq htext (by omega) hstr]
    rfl

/-- The format a%d at 0x100, the argument -7 on the stack at 0x204, and zeros. -/
def negativeSeven : ByteMemory :=
  write (write (fun _ => 0) 0x100 [ascii 'a',ascii '%',ascii 'd']) 0x204 [0xf9,0xff,0xff,0xff]

theorem vsprintf_renders_negativeSeven : ∃ s, vsprintf negativeSeven 0x300 0x100 0x200 7 =
    .ok (3,s) ∧ CString s.buf.mem 0x300 [ascii 'a',ascii '-',ascii '7'] := by
  have hfmt : CString negativeSeven 0x100 [ascii 'a',ascii '%',ascii 'd'] :=
    ⟨⟨rfl,rfl,rfl,rfl,trivial⟩,by decide⟩
  have hargs : ArgsAt negativeSeven 0x300 3 (0x200+4) [.int (-7)] :=
    ⟨⟨fun i hi => .inl (by omega),rfl⟩,trivial⟩
  have hr : render (parse [ascii 'a',ascii '%',ascii 'd']) [.int (-7)] =
      some [ascii 'a',ascii '-',ascii '7'] := by decide
  have hrounds : [ascii 'a',ascii '%',ascii 'd'].length+
      [ascii 'a',ascii '-',ascii '7'].length < 7 := by decide
  obtain ⟨-,s,-,-,-,-,-,h⟩ := vsprintf_renders hfmt
    (fun i hi => .inl (by simp at hi; omega)) hargs hr (by decide)
    (fun i hi => by simp at hi; interval_cases i <;> rfl) hrounds
  exact ⟨s,h (by simp)⟩

end Results
end OsKernel

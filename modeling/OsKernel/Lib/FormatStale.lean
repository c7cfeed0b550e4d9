import OsKernel.Lib.FormatRuns

/-! Whether the result of vsprintf depends on what its destination held before. Only the strcpy of
a %s ends the output, so that a format that ends in anything else leaves that to the buffer. -/
namespace OsKernel
open ByteMemory

section Strings
variable {mem : ByteMemory} {a : ℕ} {l text text' : List (BitVec 8)}

theorem CString.unique (h : CString mem a text) (h' : CString mem a text') : text = text' := by
  induction text generalizing a text' with
  | nil =>
    cases text' with
    | nil => rfl
    | cons b text' => exact absurd (h'.head.symm.trans h.end) h'.ne_zero
  | cons b text ih =>
    cases text' with
    | nil => exact absurd (h.head.symm.trans h'.end) h.ne_zero
    | cons b' text' =>
      rw [ih h.tail h'.tail,← h.head,← h'.head]

/-- Bytes with a zero among them hold the same string in every memory. -/
theorem exists_cString (h : 0 ∈ l) : ∃ text : List (BitVec 8), text.length < l.length ∧
    ∀ (mem : ByteMemory) (a : ℕ), Bytes mem a l → CString mem a text := by
  induction l with
  | nil => simp at h
  | cons b l ih =>
    by_cases hb : b = 0
    · subst hb
      exact ⟨[],Nat.succ_pos _,fun mem a hl => ⟨⟨hl.1,trivial⟩,by simp⟩⟩
    · obtain ⟨text,hlen,htext⟩ := ih ((List.mem_cons.mp h).resolve_left (Ne.symm hb))
      refine ⟨b::text,Nat.succ_lt_succ hlen,fun mem a hl => ?_⟩
      have ht := htext mem (a+1) hl.2
      refine ⟨⟨hl.1,ht.bytes⟩,fun c hc => ?_⟩
      rcases List.mem_cons.mp hc with rfl | hc
      · exact hb
      · exact ht.nonzero c hc

end Strings

section Stale
variable {mem : ByteMemory} {str n format ap rounds : ℕ} {fmt out : List (BitVec 8)}
  {args : List Arg} {ds : List Directive}

/-- A zero that %c prints is a character of the output. -/
theorem zero_mem_render (h : render ds args = some out) (hc : Arg.chr 0 ∈ args) : 0 ∈ out := by
  induction ds generalizing args out with
  | nil =>
    obtain ⟨rfl,-⟩ := render_nil h
    simp at hc
  | cons d ds ih =>
    cases d with
    | literal b =>
      obtain ⟨out',hr,rfl⟩ := render_literal h
      exact List.mem_cons_of_mem _ (ih hr hc)
    | conversion k =>
      obtain ⟨arg,args',text,out',rfl,htext,hr,rfl⟩ := render_conversion h
      rcases List.mem_cons.mp hc with rfl | hc
      · cases k <;> cases htext
        exact List.mem_append_left _ List.mem_cons_self
      · exact List.mem_append_right _ (ih hr hc)

/-- Two runs that differ in what the n+1 bytes of the destination held before return the same
length and leave the same string. -/
def Forgets (mem : ByteMemory) (str n format ap rounds : ℕ) : Prop :=
  ∀ mem₁ mem₂ : ByteMemory, SameApart mem mem₁ str n → SameApart mem mem₂ str n →
    ∃ text s₁ s₂, vsprintf mem₁ str format ap rounds = .ok (text.length,s₁) ∧
      vsprintf mem₂ str format ap rounds = .ok (text.length,s₂) ∧
      CString s₁.buf.mem str text ∧ CString s₂.buf.mem str text

/-- The loop with an old memory in the destination. -/
theorem vsprintf_loop_stale {old : ByteMemory} (hold : SameApart mem old str n)
    (hfmt : CString mem format fmt) (happ : ∀ i, i ≤ fmt.length → Apart str n (format+i))
    (hargs : ArgsAt mem str n (ap+4) args) (hr : render (parse fmt) args = some out)
    (hstr : str ≠ 0) (hn : out.length ≤ n) (hrounds : fmt.length+n < rounds) :
    ∃ s, Vsprintf.loop ⟨⟨old,str⟩,format,old format,ap,[format]⟩ rounds = .ok s ∧
      Bytes s.buf.mem str out ∧ s.buf.mem (str+out.length) =
        if (parse fmt).getLast? = some (.conversion .s) then 0 else old (str+out.length) := by
  have hat : Vsprintf.At old str n ⟨⟨old,str⟩,format,old format,ap,[format]⟩ [] fmt args :=
    ⟨rfl,rfl,hold.cString hfmt happ,happ,hold.argsAt hargs⟩
  obtain ⟨s,mem',hs,hfin,-,hleft⟩ := hat.loop hstr hr hn hrounds
  have hmem : s.buf.mem = write mem' str out := hfin.mem
  refine ⟨s,hs,hmem ▸ bytes_write,?_⟩
  rw [hmem,write_of_not_mem (.inr le_rfl)]
  exact hleft

/-- The result is that of the loop once its memory holds a string. -/
theorem vsprintf_of_loop {old : ByteMemory} {s : Vsprintf} {text : List (BitVec 8)}
    (hs : Vsprintf.loop ⟨⟨old,str⟩,format,old format,ap,[format]⟩ rounds = .ok s)
    (htext : CString s.buf.mem str text) (hlen : text.length < rounds) (hstr : str ≠ 0) :
    vsprintf old str format ap rounds = .ok (text.length,s) := by
  rw [vsprintf,hs,bind_of_ok rfl,strlen_eq htext hlen hstr]
  rfl

/-- The result does not depend on the old contents exactly if the format ends in %s, or if a %c
has printed a zero. -/
theorem vsprintf_forgets_iff (hfmt : CString mem format fmt)
    (happ : ∀ i, i ≤ fmt.length → Apart str n (format+i))
    (hargs : ArgsAt mem str n (ap+4) args) (hr : render (parse fmt) args = some out)
    (hstr : str ≠ 0) (hn : out.length ≤ n) (hrounds : fmt.length+n < rounds) :
    Forgets mem str n format ap rounds ↔
      (parse fmt).getLast? = some (.conversion .s) ∨ Arg.chr 0 ∈ args := by
  have hloop {old : ByteMemory} (hold : SameApart mem old str n) :=
    vsprintf_loop_stale hold hfmt happ hargs hr hstr hn hrounds
  constructor
  · intro hf
    by_contra hc
    push Not at hc
    have hne : ∀ b ∈ out, b ≠ 0 := render_ne_zero (fun b hb => hfmt.nonzero b (parse_literal_mem hb))
      hargs (fun c hm he => hc.2 (he ▸ hm)) hr
    -- one run finds a zero behind its output, and the other a one
    have hold (b : BitVec 8) : SameApart mem (store8 mem (str+out.length) b) str n := by
      intro a ha
      unfold Apart at ha
      exact store8_of_ne (by omega)
    obtain ⟨s₁,hs₁,hb₁,he₁⟩ := hloop (hold 0)
    obtain ⟨s₂,hs₂,hb₂,he₂⟩ := hloop (hold 1)
    rw [if_neg hc.1,store8,Function.update_self] at he₁ he₂
    have htext₁ : CString s₁.buf.mem str out := ⟨bytes_append.mpr ⟨hb₁,he₁,trivial⟩,hne⟩
    obtain ⟨text,t₁,t₂,hv₁,hv₂,ht₁,ht₂⟩ := hf _ _ (hold 0) (hold 1)
    rw [vsprintf_of_loop hs₁ htext₁ (by omega) hstr] at hv₁
    obtain ⟨-,rfl⟩ := Prod.mk.inj (Except.ok.inj hv₁)
    obtain rfl := CString.unique htext₁ ht₁
    rw [vsprintf,hs₂,bind_of_ok rfl] at hv₂
    obtain ⟨len,-,hv₂⟩ := bind_eq_ok_iff.mp hv₂
    obtain ⟨-,rfl⟩ := Prod.mk.inj (Except.ok.inj hv₂)
    have hend := (bytes_append.mp ht₂.bytes).2.1
    rw [he₂] at hend
    exact absurd hend (by decide)
  · intro hc mem₁ mem₂ h₁ h₂
    obtain ⟨s₁,hs₁,hb₁,he₁⟩ := hloop h₁
    obtain ⟨s₂,hs₂,hb₂,he₂⟩ := hloop h₂
    -- the bytes that both runs leave, up to a zero
    obtain ⟨l,hl,h0,hl₁,hl₂⟩ : ∃ l : List (BitVec 8), l.length ≤ n+1 ∧ 0 ∈ l ∧
        Bytes s₁.buf.mem str l ∧ Bytes s₂.buf.mem str l := by
      rcases hc with hlast | hchr
      · rw [if_pos hlast] at he₁ he₂
        exact ⟨out++[0],by simpa using hn,by simp,bytes_append.mpr ⟨hb₁,he₁,trivial⟩,
          bytes_append.mpr ⟨hb₂,he₂,trivial⟩⟩
      · exact ⟨out,by omega,zero_mem_render hr hchr,hb₁,hb₂⟩
    obtain ⟨text,hlen,htext⟩ := exists_cString h0
    have ht₁ := htext _ _ hl₁
    have ht₂ := htext _ _ hl₂
    exact ⟨text,s₁,s₂,vsprintf_of_loop hs₁ ht₁ (by omega) hstr,
      vsprintf_of_loop hs₂ ht₂ (by omega) hstr,ht₁,ht₂⟩

/-- The format %s at 0x100, its argument at 0x204, which points to the string b at 0x110. -/
def stringFormat : ByteMemory :=
  write (write (write (fun _ => 0) 0x100 [ascii '%',ascii 's']) 0x110 [ascii 'b']) 0x204 [0x10,0x01]

theorem vsprintf_forgets_stringFormat : Forgets stringFormat 0x300 4 0x100 0x200 7 ↔
    (parse [ascii '%',ascii 's']).getLast? = some (.conversion .s) ∨
      Arg.chr 0 ∈ [Arg.str 0x110 [ascii 'b']] := by
  have hfmt : CString stringFormat 0x100 [ascii '%',ascii 's'] := ⟨⟨rfl,rfl,rfl,trivial⟩,by decide⟩
  have hstring : CString stringFormat 0x110 [ascii 'b'] := ⟨⟨rfl,rfl,trivial⟩,by decide⟩
  have hargs : ArgsAt stringFormat 0x300 4 (0x200+4) [.str 0x110 [ascii 'b']] :=
    ⟨⟨fun i hi => .inl (by omega),by decide,by decide,hstring,
      fun i hi => .inl (by simp at hi; omega)⟩,trivial⟩
  have hr : render (parse [ascii '%',ascii 's']) [.str 0x110 [ascii 'b']] = some [ascii 'b'] := by
    decide
  exact vsprintf_forgets_iff hfmt (fun i hi => .inl (by simp at hi; omega)) hargs hr (by decide)
    (by decide) (by decide)

/-- The format a at 0x100, and an old text in the destination. -/
def literalFormat (old : List (BitVec 8)) : ByteMemory :=
  write (write (fun _ => 0) 0x100 [ascii 'a']) 0x300 old

/-- The new text a is followed by what is left of the old one. -/
theorem vsprintf_stale :
    (vsprintf (literalFormat []) 0x300 0x100 0x200 7).map Prod.fst = .ok 1 ∧
    (vsprintf (literalFormat [ascii 'x',ascii 'y',ascii 'z']) 0x300 0x100 0x200 7).map Prod.fst =
      .ok 3 ∧ ¬ Forgets (literalFormat []) 0x300 3 0x100 0x200 7 := by
  have h₁ : (vsprintf (literalFormat []) 0x300 0x100 0x200 7).map Prod.fst = .ok 1 := by decide
  have h₂ : (vsprintf (literalFormat [ascii 'x',ascii 'y',ascii 'z']) 0x300 0x100 0x200 7).map
      Prod.fst = .ok 3 := by decide
  refine ⟨h₁,h₂,fun hf => ?_⟩
  have hold : SameApart (literalFormat []) (literalFormat [ascii 'x',ascii 'y',ascii 'z'])
      0x300 3 := by
    intro a ha
    unfold Apart at ha
    exact write_of_not_mem (by simp; omega)
  obtain ⟨text,s₁,s₂,hv₁,hv₂,-⟩ := hf _ _ (fun _ _ => rfl) hold
  rw [hv₁] at h₁
  rw [hv₂] at h₂
  have hlen₁ : text.length = 1 := Except.ok.inj h₁
  have hlen₂ : text.length = 3 := Except.ok.inj h₂
  omega

end Stale
end OsKernel

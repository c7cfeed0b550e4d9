import OsKernel.Boot.KernelInit

/-! A run of kernel_init. The pushes stay in the stack of the loader, and the rest of the memory
changes by one copy after the other. A copy returns if and only if its destination is mapped. -/
namespace OsKernel
open X86

section Memory
variable {pages : Word → Option Word} {m m' : Mem} {a x w : Word} {b : BitVec 8}

/-- The memory with a byte written, where there is a page for it. -/
def setByte (pages : Word → Option Word) (m : Mem) (a : Word) (b : BitVec 8) : Mem :=
  (writeByte pages m a b).getD m

def setDword (pages : Word → Option Word) (m : Mem) (a w : Word) : Mem :=
  setByte pages (setByte pages (setByte pages (setByte pages m a (w.extractLsb' 0 8)) (a+1)
    (w.extractLsb' 8 8)) (a+2) (w.extractLsb' 16 8)) (a+3) (w.extractLsb' 24 8)

lemma readByte_eq (h : (pages a).isSome) : readByte pages m a = some (byteAt pages m a) := by
  obtain ⟨x,hx⟩ := Option.isSome_iff_exists.mp h
  rw [byteAt,readByte,hx]
  rfl

lemma byteAt_eq (h : pages a = some x) : byteAt pages m a = m x := by
  rw [byteAt,readByte,h]
  rfl

lemma byteAt_congr (h : ∀ x, pages a = some x → m' x = m x) :
    byteAt pages m' a = byteAt pages m a := by
  cases hp : pages a with
  | none =>
    rw [byteAt,byteAt,readByte,readByte,hp]
    rfl
  | some x => rw [byteAt_eq hp,byteAt_eq hp,h x hp]

lemma writeByte_eq (h : (pages a).isSome) :
    writeByte pages m a b = some (setByte pages m a b) := by
  obtain ⟨x,hx⟩ := Option.isSome_iff_exists.mp h
  rw [setByte,writeByte,hx]
  rfl

lemma setByte_self (h : pages a = some x) : setByte pages m a b x = b := by
  rw [setByte,writeByte,h]
  exact Function.update_self _ _ _

lemma setByte_of_ne (h : pages a ≠ some x) : setByte pages m a b x = m x := by
  cases hp : pages a with
  | none =>
    rw [setByte,writeByte,hp]
    rfl
  | some y =>
    rw [setByte,writeByte,hp]
    refine Function.update_of_ne ?_ _ _
    rintro rfl
    exact h hp

lemma readWord_eq (h₀ : (pages a).isSome) (h₁ : (pages (a+1)).isSome) :
    readWord pages m a = some (wordAt pages m a) := by
  rw [readWord,readByte_eq h₀,readByte_eq h₁]
  rfl

section Dword
variable (h : ∀ i < 4, (pages (a+BitVec.ofNat 32 i)).isSome)
include h

lemma dword_maps : (pages a).isSome ∧ (pages (a+1)).isSome ∧ (pages (a+2)).isSome ∧
    (pages (a+3)).isSome := by
  have h₀ := h 0 (by omega)
  rw [BitVec.add_zero] at h₀
  exact ⟨h₀,h 1 (by omega),h 2 (by omega),h 3 (by omega)⟩

lemma readDword_eq : readDword pages m a = some (dwordAt pages m a) := by
  obtain ⟨h₀,h₁,h₂,h₃⟩ := dword_maps h
  rw [readDword,readByte_eq h₀,readByte_eq h₁,readByte_eq h₂,readByte_eq h₃]
  rfl

lemma writeDword_eq : writeDword pages m a w = some (setDword pages m a w) := by
  obtain ⟨h₀,h₁,h₂,h₃⟩ := dword_maps h
  rw [writeDword,writeByte_eq h₀,Option.bind_eq_bind,Option.bind_some,writeByte_eq h₁,
    Option.bind_some,writeByte_eq h₂,Option.bind_some,writeByte_eq h₃]
  rfl

end Dword

lemma setDword_of_ne (h : ∀ i < 4, pages (a+BitVec.ofNat 32 i) ≠ some x) :
    setDword pages m a w x = m x := by
  have h0 := h 0 (by omega)
  rw [BitVec.add_zero] at h0
  exact (setByte_of_ne (h 3 (by omega))).trans ((setByte_of_ne (h 2 (by omega))).trans
    ((setByte_of_ne (h 1 (by omega))).trans (setByte_of_ne h0)))

lemma dwordAt_congr
    (h : ∀ i < 4, ∀ x, pages (a+BitVec.ofNat 32 i) = some x → m' x = m x) :
    dwordAt pages m' a = dwordAt pages m a := by
  have h0 := h 0 (by omega)
  rw [BitVec.add_zero] at h0
  unfold dwordAt
  rw [byteAt_congr h0,byteAt_congr (a := a+1) (h 1 (by omega)),
    byteAt_congr (a := a+2) (h 2 (by omega)),byteAt_congr (a := a+3) (h 3 (by omega))]

/-- A word is read back where its bytes are apart. -/
lemma dwordAt_setDword (hmaps : ∀ i < 4, (pages (a+BitVec.ofNat 32 i)).isSome)
    (h : ∀ i < 4, ∀ j < 4,
      pages (a+BitVec.ofNat 32 i) = pages (a+BitVec.ofNat 32 j) → i = j) :
    dwordAt pages (setDword pages m a w) a = w := by
  obtain ⟨h0,h1,h2,h3⟩ := dword_maps hmaps
  obtain ⟨x0,hx0⟩ := Option.isSome_iff_exists.mp h0
  obtain ⟨x1,hx1⟩ := Option.isSome_iff_exists.mp h1
  obtain ⟨x2,hx2⟩ := Option.isSome_iff_exists.mp h2
  obtain ⟨x3,hx3⟩ := Option.isSome_iff_exists.mp h3
  have hne (i j : ℕ) (hi : i < 4) (hj : j < 4) (hij : i ≠ j) {x : Word}
      (hx : pages (a+BitVec.ofNat 32 j) = some x) : pages (a+BitVec.ofNat 32 i) ≠ some x :=
    fun he => hij (h i hi j hj (he.trans hx.symm))
  have hx0' : pages (a+BitVec.ofNat 32 0) = some x0 := by rwa [BitVec.add_zero]
  have h01 : pages (a+1) ≠ some x0 := hne 1 0 (by omega) (by omega) (by omega) hx0'
  have h02 : pages (a+2) ≠ some x0 := hne 2 0 (by omega) (by omega) (by omega) hx0'
  have h03 : pages (a+3) ≠ some x0 := hne 3 0 (by omega) (by omega) (by omega) hx0'
  have h12 : pages (a+2) ≠ some x1 := hne 2 1 (by omega) (by omega) (by omega) hx1
  have h13 : pages (a+3) ≠ some x1 := hne 3 1 (by omega) (by omega) (by omega) hx1
  have h23 : pages (a+3) ≠ some x2 := hne 3 2 (by omega) (by omega) (by omega) hx2
  rw [dwordAt,byteAt_eq hx0,byteAt_eq hx1,byteAt_eq hx2,byteAt_eq hx3]
  unfold setDword
  rw [setByte_self hx3,setByte_of_ne h23,setByte_self hx2,setByte_of_ne h13,setByte_of_ne h12,
    setByte_self hx1,setByte_of_ne h03,setByte_of_ne h02,setByte_of_ne h01,setByte_self hx0]
  exact append_bytes w

end Memory

/-- The words of the stack, counted from its top. -/
def slot (k : ℕ) : Word := loaderStackTop-BitVec.ofNat 32 (4*k)

/-- The bytes of the stack have pages and are apart. -/
structure StackApart (pages : Word → Option Word) : Prop where
  maps : ∀ k, 1 ≤ k → k ≤ 28 → (pages (loaderStackTop-BitVec.ofNat 32 k)).isSome
  apart : ∀ k l, 1 ≤ k → k ≤ 28 → 1 ≤ l → l ≤ 28 →
    pages (loaderStackTop-BitVec.ofNat 32 k) = pages (loaderStackTop-BitVec.ofNat 32 l) → k = l

section Stack
variable {pages : Word → Option Word} {m m' : Mem} {k l i j : ℕ} {x w : Word} {ws : List Word}

lemma slot_byte (hk : 1 ≤ k) (hi : i < 4) :
    slot k+BitVec.ofNat 32 i = loaderStackTop-BitVec.ofNat 32 (4*k-i) := by
  unfold slot
  bv_omega

lemma slot_sub (k : ℕ) : slot k-4 = slot (k+1) := by
  unfold slot
  bv_omega

lemma slot_succ_add (k : ℕ) : slot (k+1)+4 = slot k := by
  unfold slot
  bv_omega

lemma stackByte_slot (hk : 1 ≤ k) (hk' : k ≤ 7) (hi : i < 4)
    (hx : pages (slot k+BitVec.ofNat 32 i) = some x) : StackByte pages x :=
  ⟨4*k-i,by omega,by omega,slot_byte hk hi ▸ hx⟩

lemma StackApart.slot_maps (h : StackApart pages) (hk : 1 ≤ k) (hk' : k ≤ 7) (hi : i < 4) :
    (pages (slot k+BitVec.ofNat 32 i)).isSome := by
  rw [slot_byte hk hi]
  exact h.maps _ (by omega) (by omega)

lemma StackApart.slots (h : StackApart pages) (hk : 1 ≤ k) (hk' : k ≤ 7) (hl : 1 ≤ l) (hl' : l ≤ 7)
    (hi : i < 4) (hj : j < 4)
    (he : pages (slot k+BitVec.ofNat 32 i) = pages (slot l+BitVec.ofNat 32 j)) :
    k = l ∧ i = j := by
  rw [slot_byte hk hi,slot_byte hl hj] at he
  have hkl := h.apart _ _ (by omega) (by omega) (by omega) (by omega) he
  omega

/-- The stack holds these words, the last one pushed first. -/
def StackHolds (pages : Word → Option Word) (m : Mem) : List Word → Prop
  | [] => True
  | w::ws => dwordAt pages m (slot (ws.length+1)) = w ∧ StackHolds pages m ws

lemma StackHolds.congr (h : StackHolds pages m ws) (hlen : ws.length ≤ 7)
    (hm : ∀ x, StackByte pages x → m' x = m x) : StackHolds pages m' ws := by
  induction ws with
  | nil => trivial
  | cons w ws ih =>
    rw [List.length_cons] at hlen
    refine ⟨(dwordAt_congr fun i hi x hx => hm _ ?_).trans h.1,ih h.2 (by omega)⟩
    exact stackByte_slot (by omega) hlen hi hx

/-- A push below the words. -/
lemma StackHolds.set (h : StackHolds pages m ws) (hs : StackApart pages) (hl : ws.length < l)
    (hl' : l ≤ 7) : StackHolds pages (setDword pages m (slot l) w) ws := by
  induction ws with
  | nil => trivial
  | cons v ws ih =>
    rw [List.length_cons] at hl
    refine ⟨(dwordAt_congr fun i hi x hx => setDword_of_ne fun j hj he => ?_).trans h.1,
      ih h.2 (by omega)⟩
    have hkl := (hs.slots (by omega) (by omega) (by omega) hl' hi hj (hx.trans he.symm)).1
    omega

/-- The words above the last ones. -/
lemma StackHolds.get (h : StackHolds pages m ws) (hk : k < ws.length)
    (hw : ws[k]? = some w) : dwordAt pages m (slot (ws.length-k)) = w := by
  induction k generalizing ws with
  | zero =>
    cases ws with
    | nil => cases hw
    | cons v ws =>
      obtain rfl := Option.some.inj hw
      exact h.1
  | succ k ih =>
    cases ws with
    | nil => cases hw
    | cons v ws =>
      rw [List.length_cons] at hk ⊢
      have hget := ih h.2 (by omega) hw
      rwa [show ws.length+1-(k+1) = ws.length-k by omega]

end Stack

/-- The processor has pushed these words, and the rest of the memory is as in m. -/
structure OnStack (pages : Word → Option Word) (s : Protected) (ws : List Word) (m : Mem) :
    Prop where
  esp : s.esp = slot ws.length
  words : StackHolds pages s.mem ws
  off : ∀ x, ¬ StackByte pages x → s.mem x = m x

/-- The registers that mem_cpy gives back. -/
structure SameRegs (s s' : Protected) : Prop where
  ebx : s'.ebx = s.ebx
  ecx : s'.ecx = s.ecx
  edx : s'.edx = s.edx

lemma SameRegs.trans {s s' s'' : Protected} (h : SameRegs s s') (h' : SameRegs s' s'') :
    SameRegs s s'' := ⟨h'.ebx.trans h.ebx,h'.ecx.trans h.ecx,h'.edx.trans h.edx⟩

section Calls
variable {pages : Word → Option Word} {s : Protected} {ws : List Word} {m : Mem} {w v : Word}
  {k : ℕ}

/-- A push has room on the stack. -/
lemma OnStack.push (h : OnStack pages s ws m) (hs : StackApart pages) (hl : ws.length < 7)
    (w : Word) : ∃ mem, s.push pages w = some { s with esp := s.esp-4, mem := mem } ∧
      OnStack pages { s with esp := s.esp-4, mem := mem } (w::ws) m := by
  have hesp : s.esp-4 = slot (ws.length+1) := by rw [h.esp,slot_sub]
  have hmaps : ∀ i < 4, (pages (s.esp-4+BitVec.ofNat 32 i)).isSome := by
    rw [hesp]
    exact fun i hi => hs.slot_maps (by omega) hl hi
  refine ⟨setDword pages s.mem (s.esp-4) w,by rw [Protected.push,writeDword_eq hmaps]; rfl,hesp,?_,
    fun x hx => ?_⟩
  · change StackHolds pages (setDword pages s.mem (s.esp-4) w) (w::ws)
    rw [hesp] at hmaps ⊢
    exact ⟨dwordAt_setDword hmaps fun i hi j hj he =>
      (hs.slots (by omega) hl (by omega) hl hi hj he).2,h.words.set hs (Nat.lt_succ_self _) hl⟩
  · refine (setDword_of_ne fun i hi he => hx ?_).trans (h.off x hx)
    rw [hesp] at he
    exact stackByte_slot (by omega) hl hi he

lemma OnStack.top (h : OnStack pages s (w::ws) m) (hs : StackApart pages) (hl : ws.length < 7) :
    s.top pages = some w := by
  rw [Protected.top,h.esp,readDword_eq fun i hi => hs.slot_maps (by simp) (by simpa using hl) hi]
  exact congrArg some h.words.1

/-- A pop takes the last word. -/
lemma OnStack.pop (h : OnStack pages s (w::ws) m) {s' : Protected} (hesp : s'.esp = s.esp+4)
    (hmem : s'.mem = s.mem) : OnStack pages s' ws m := by
  refine ⟨?_,hmem ▸ h.words.2,fun x hx => hmem ▸ h.off x hx⟩
  rw [hesp,h.esp,List.length_cons,slot_succ_add]

/-- Other registers do not matter. -/
lemma OnStack.of_eq (h : OnStack pages s ws m) {s' : Protected} (hesp : s'.esp = s.esp)
    (hmem : s'.mem = s.mem) : OnStack pages s' ws m :=
  ⟨hesp.trans h.esp,hmem ▸ h.words,fun x hx => hmem ▸ h.off x hx⟩

/-- A word of the stack. -/
lemma OnStack.word (h : OnStack pages s ws m) (hs : StackApart pages) (hk : k < ws.length)
    (hlen : ws.length ≤ 7) (hw : ws[k]? = some w) :
    readDword pages s.mem (slot (ws.length-k)) = some w := by
  rw [readDword_eq fun i hi => hs.slot_maps (by omega) (by omega) hi,h.words.get hk hw]

/-- Bytes off the stack are read as in m. -/
lemma OnStack.dword (h : OnStack pages s ws m) {a : Word}
    (hmaps : ∀ i < 4, (pages (a+BitVec.ofNat 32 i)).isSome)
    (ha : ∀ i < 4, ∀ x, pages (a+BitVec.ofNat 32 i) = some x → ¬ StackByte pages x) :
    readDword pages s.mem a = some (dwordAt pages m a) := by
  rw [readDword_eq hmaps,dwordAt_congr fun i hi x hx => h.off x (ha i hi x hx)]

end Calls

section Copy
variable {pages : Word → Option Word} {s s' : Protected} {m : Mem} {f g : ℕ → BitVec 8}
  {src dst x : Word} {n i : ℕ}

/-- A copy of bytes to a destination, from its first byte on. -/
def copyBytes (pages : Word → Option Word) (f : ℕ → BitVec 8) (dst : Word) : ℕ → Mem → Mem
  | 0,m => m
  | n+1,m => setByte pages (copyBytes pages f dst n m) (dst+BitVec.ofNat 32 n) (f n)

lemma copyBytes_congr (h : ∀ i < n, f i = g i) :
    copyBytes pages f dst n m = copyBytes pages g dst n m := by
  induction n with
  | zero => rfl
  | succ n ih =>
    rw [copyBytes,copyBytes,ih fun i hi => h i (by omega),h n (by omega)]

lemma copyBytes_of_ne (h : ∀ i < n, pages (dst+BitVec.ofNat 32 i) ≠ some x) :
    copyBytes pages f dst n m x = m x := by
  induction n with
  | zero => rfl
  | succ n ih => exact (setByte_of_ne (h n (by omega))).trans (ih fun i hi => h i (by omega))

lemma copyBytes_of_eq (hi : i < n) (hx : pages (dst+BitVec.ofNat 32 i) = some x)
    (h : ∀ j < n, pages (dst+BitVec.ofNat 32 j) = some x → i = j) :
    copyBytes pages f dst n m x = f i := by
  induction n with
  | zero => omega
  | succ n ih =>
    by_cases hin : i = n
    · subst hin
      exact setByte_self hx
    · exact (setByte_of_ne fun he => hin (h n (by omega) he)).trans
        (ih (by omega) fun j hj => h j (by omega))

/-- Two copies of the same bytes agree where the memories agreed. -/
lemma copyBytes_agree {m' : Mem} (h : m' x = m x) :
    copyBytes pages f dst n m' x = copyBytes pages f dst n m x := by
  induction n with
  | zero => exact h
  | succ n ih =>
    by_cases hp : pages (dst+BitVec.ofNat 32 n) = some x
    · exact (setByte_self hp).trans (setByte_self hp).symm
    · exact (setByte_of_ne hp).trans (ih.trans (setByte_of_ne hp).symm)

/-- The bytes of rep movsb, whose source is apart from the destination. -/
lemma repMovsb_runs (hsrc : s.esi = src) (hdst : s.edi = dst)
    (hfrom : ∀ i < n, (pages (src+BitVec.ofNat 32 i)).isSome)
    (hto : ∀ i < n, (pages (dst+BitVec.ofNat 32 i)).isSome)
    (h : ∀ i < n, ∀ j < n, pages (src+BitVec.ofNat 32 i) ≠ pages (dst+BitVec.ofNat 32 j)) :
    ∃ ecx, s.repMovsb pages n = some { s with
      mem := copyBytes pages (fun i => byteAt pages s.mem (src+BitVec.ofNat 32 i)) dst n s.mem
      esi := src+BitVec.ofNat 32 n
      edi := dst+BitVec.ofNat 32 n
      ecx := ecx } := by
  induction n with
  | zero =>
    refine ⟨s.ecx,?_⟩
    rw [BitVec.add_zero,BitVec.add_zero,← hsrc,← hdst]
    rfl
  | succ n ih =>
    obtain ⟨ecx,hrun⟩ := ih (fun i hi => hfrom i (by omega)) (fun i hi => hto i (by omega))
      fun i hi j hj => h i (by omega) j (by omega)
    refine ⟨ecx-1,?_⟩
    have hread : byteAt pages (copyBytes pages
        (fun i => byteAt pages s.mem (src+BitVec.ofNat 32 i)) dst n s.mem)
        (src+BitVec.ofNat 32 n) = byteAt pages s.mem (src+BitVec.ofNat 32 n) :=
      byteAt_congr fun x hx => copyBytes_of_ne fun j hj he =>
        h n (by omega) j (by omega) (hx.trans he.symm)
    have hadd : ∀ a : Word, a+BitVec.ofNat 32 n+1 = a+BitVec.ofNat 32 (n+1) := by
      intro a
      bv_omega
    rw [Protected.repMovsb,hrun,Option.bind_eq_bind,Option.bind_some,Protected.movsb,
      readByte_eq (hfrom n (by omega)),Option.bind_eq_bind,Option.bind_some,
      writeByte_eq (hto n (by omega)),Option.bind_eq_bind,Option.bind_some,hread,hadd,hadd]
    rfl

lemma movsb_eq_some (h : s.movsb pages = some s') :
    (pages s.edi).isSome ∧ s'.edi = s.edi+1 := by
  unfold Protected.movsb at h
  obtain ⟨b,-,h⟩ := Option.bind_eq_some_iff.mp h
  obtain ⟨mem,hmem,h⟩ := Option.bind_eq_some_iff.mp h
  obtain ⟨x,hx,-⟩ := Option.map_eq_some_iff.mp hmem
  obtain rfl := Option.some.inj h
  exact ⟨Option.isSome_iff_exists.mpr ⟨x,hx⟩,rfl⟩

lemma repMovsb_edi (h : s.repMovsb pages n = some s') : s'.edi = s.edi+BitVec.ofNat 32 n := by
  induction n generalizing s' with
  | zero =>
    obtain rfl := Option.some.inj h
    exact (BitVec.add_zero _).symm
  | succ n ih =>
    obtain ⟨u,hu,h⟩ := Option.bind_eq_some_iff.mp h
    rw [(movsb_eq_some h).2,ih hu]
    bv_omega

/-- A copy that returns has found a page for every byte. -/
lemma repMovsb_maps (h : s.repMovsb pages n = some s') (hi : i < n) :
    (pages (s.edi+BitVec.ofNat 32 i)).isSome := by
  induction n generalizing s' with
  | zero => omega
  | succ n ih =>
    obtain ⟨u,hu,hlast⟩ := Option.bind_eq_some_iff.mp h
    by_cases hin : i = n
    · subst hin
      rw [← repMovsb_edi hu]
      exact (movsb_eq_some hlast).1
    · exact ih hu (by omega)

end Copy

section Segment
variable {pages : Word → Option Word} {s s' : Protected} {ws : List Word} {m : Mem}
  {ret dst src size : Word} {k : ℕ}

/-- A step of the code that has returned. -/
lemma bind_some_of {α β : Type} {o : Option α} {f : α → Option β} {a : α} {b : β}
    (h : o = some a) (hf : f a = some b) : (o >>= f) = some b :=
  Option.bind_eq_some_iff.mpr ⟨a,h,hf⟩

lemma OnStack.copied (h : OnStack pages s ws m) (hlen : ws.length ≤ 7) {n : ℕ}
    (hesp : s'.esp = s.esp) (hmem : s'.mem =
      copyBytes pages (fun i => byteAt pages s.mem (src+BitVec.ofNat 32 i)) dst n s.mem)
    (hsrc : ∀ i < n, ∀ x, pages (src+BitVec.ofNat 32 i) = some x → ¬ StackByte pages x)
    (hdst : ∀ i < n, ∀ x, pages (dst+BitVec.ofNat 32 i) = some x → ¬ StackByte pages x) :
    OnStack pages s' ws
      (copyBytes pages (fun i => byteAt pages m (src+BitVec.ofNat 32 i)) dst n m) := by
  refine ⟨hesp.trans h.esp,?_,fun x hx => ?_⟩
  · rw [hmem]
    exact h.words.congr hlen fun x hx => copyBytes_of_ne fun i hi he => hdst i hi x he hx
  · rw [hmem,copyBytes_congr fun i hi => byteAt_congr fun y hy => h.off y (hsrc i hi y hy)]
    exact copyBytes_agree (h.off x hx)

/-- mem_cpy finds its arguments above the return address. -/
lemma enterMemCpy_spec (h : OnStack pages s (ret::dst::src::size::ws) m) (hs : StackApart pages)
    (hlen : ws.length ≤ 1) : ∃ s', s.enterMemCpy pages = some s' ∧
      OnStack pages s' (s.ecx::s.ebp::ret::dst::src::size::ws) m ∧
      s'.edi = dst ∧ s'.esi = src ∧ s'.ecx = size ∧ s'.ebx = s.ebx ∧ s'.edx = s.edx := by
  obtain ⟨mem₁,hpush₁,h₁⟩ := h.push hs (by simp; omega) s.ebp
  have h₂ : OnStack pages { s with ebp := s.esp-4, esp := s.esp-4, mem := mem₁ }
      (s.ebp::ret::dst::src::size::ws) m := h₁.of_eq rfl rfl
  obtain ⟨mem₃,hpush₃,h₃⟩ := h₂.push hs (by simp; omega) s.ecx
  have hlen₃ : (s.ecx::s.ebp::ret::dst::src::size::ws).length = ws.length+6 := rfl
  have hebp : s.esp-4 = slot (ws.length+5) := h₁.esp
  have hat (k : ℕ) (w : Word) (hw : (s.ecx::s.ebp::ret::dst::src::size::ws)[k]? = some w)
      (hk : k < 6) (d : Word) (hd : slot (ws.length+5)+d = slot (ws.length+6-k)) :
      readDword pages mem₃ (s.esp-4+d) = some w := by
    have hword := h₃.word hs (by rw [hlen₃]; omega) (by rw [hlen₃]; omega) hw
    rwa [hlen₃,← hd,← hebp] at hword
  have hdst := hat 3 dst rfl (by omega) 8 (by unfold slot; bv_omega)
  have hsrc := hat 4 src rfl (by omega) 12 (by unfold slot; bv_omega)
  have hsize := hat 5 size rfl (by omega) 16 (by unfold slot; bv_omega)
  exact ⟨_,bind_some_of hpush₁ (bind_some_of hpush₃ (bind_some_of hdst (bind_some_of hsrc
    (bind_some_of hsize rfl)))),h₃.of_eq rfl rfl,rfl,rfl,rfl,rfl,rfl⟩

lemma leaveMemCpy_spec {ebp ecx : Word} (h : OnStack pages s (ecx::ebp::ret::ws) m)
    (hs : StackApart pages) (hlen : ws.length ≤ 4) : ∃ s', s.leaveMemCpy pages = some s' ∧
      OnStack pages s' ws m ∧ s'.eip = ret ∧ s'.ecx = ecx ∧ s'.ebx = s.ebx ∧ s'.edx = s.edx := by
  have h₁ : OnStack pages { s with ecx := ecx, esp := s.esp+4 } (ebp::ret::ws) m := h.pop rfl rfl
  have h₂ : OnStack pages { s with ecx := ecx, ebp := ebp, esp := s.esp+4+4 } (ret::ws) m :=
    h₁.pop rfl rfl
  have htop := h.top hs (by simp; omega)
  have htop₁ := h₁.top hs (by simp; omega)
  have htop₂ := h₂.top hs (by omega)
  exact ⟨_,bind_some_of htop (bind_some_of htop₁ (bind_some_of htop₂ rfl)),h₂.pop rfl rfl,rfl,rfl,
    rfl,rfl⟩

/-- mem_cpy copies its bytes and takes its frame off the stack, if there are pages for them. -/
theorem memCpy_runs (h : OnStack pages s (ret::dst::src::size::ws) m) (hs : StackApart pages)
    (hlen : ws.length ≤ 1)
    (hfrom : ∀ i < size.toNat, (pages (src+BitVec.ofNat 32 i)).isSome)
    (hto : ∀ i < size.toNat, (pages (dst+BitVec.ofNat 32 i)).isSome)
    (hsrc : ∀ i < size.toNat, ∀ x, pages (src+BitVec.ofNat 32 i) = some x → ¬ StackByte pages x)
    (hdst : ∀ i < size.toNat, ∀ x, pages (dst+BitVec.ofNat 32 i) = some x → ¬ StackByte pages x)
    (hne : ∀ i < size.toNat, ∀ j < size.toNat,
      pages (src+BitVec.ofNat 32 i) ≠ pages (dst+BitVec.ofNat 32 j)) :
    ∃ s', s.memCpy pages = some s' ∧ OnStack pages s' (dst::src::size::ws)
        (copyBytes pages (fun i => byteAt pages m (src+BitVec.ofNat 32 i)) dst size.toNat m) ∧
      s'.eip = ret ∧ SameRegs s s' := by
  obtain ⟨s₁,hrun₁,h₁,hedi,hesi,hecx,hebx,hedx⟩ := enterMemCpy_spec h hs hlen
  obtain ⟨ecx,hrun₂⟩ := repMovsb_runs hesi hedi hfrom hto hne
  have h₂ : OnStack pages { s₁ with
      mem := copyBytes pages (fun i => byteAt pages s₁.mem (src+BitVec.ofNat 32 i)) dst size.toNat
        s₁.mem
      esi := src+BitVec.ofNat 32 size.toNat
      edi := dst+BitVec.ofNat 32 size.toNat
      ecx := ecx } _ _ := h₁.copied (by simp; omega) rfl rfl hsrc hdst
  obtain ⟨s₃,hrun₃,h₃,heip,hecx',hebx',hedx'⟩ := leaveMemCpy_spec h₂ hs (by simp; omega)
  have hcount : s₁.repMovsb pages s₁.ecx.toNat = s₁.repMovsb pages size.toNat := by rw [hecx]
  exact ⟨s₃,bind_some_of hrun₁ (bind_some_of (hcount.trans hrun₂) hrun₃),h₃,heip,
    ⟨hebx'.trans hebx,hecx',hedx'.trans hedx⟩⟩

/-- If mem_cpy returns, there are pages for its destination. -/
theorem memCpy_maps (h : OnStack pages s (ret::dst::src::size::ws) m) (hs : StackApart pages)
    (hlen : ws.length ≤ 1) (hrun : s.memCpy pages = some s') :
    ∀ i < size.toNat, (pages (dst+BitVec.ofNat 32 i)).isSome := by
  obtain ⟨s₁,hrun₁,-,hedi,-,hecx,-⟩ := enterMemCpy_spec h hs hlen
  obtain ⟨u,hu,hrest⟩ := Option.bind_eq_some_iff.mp hrun
  obtain rfl := Option.some.inj (hrun₁.symm.trans hu)
  obtain ⟨v,hv,-⟩ := Option.bind_eq_some_iff.mp hrest
  intro i hi
  rw [← hedi]
  exact repMovsb_maps hv (hecx ▸ hi)

/-- The fields of a header lie in the image. -/
lemma OnStack.field (h : OnStack pages s ws m) {a : Word}
    (hmaps : ∀ i < 32, (pages (a+BitVec.ofNat 32 i)).isSome)
    (hread : ∀ i < 32, ∀ x, pages (a+BitVec.ofNat 32 i) = some x → ¬ StackByte pages x)
    (hk : k ≤ 28) :
    readDword pages s.mem (a+BitVec.ofNat 32 k) = some (dwordAt pages m (a+BitVec.ofNat 32 k)) := by
  have hadd (i : ℕ) : a+BitVec.ofNat 32 k+BitVec.ofNat 32 i = a+BitVec.ofNat 32 (k+i) := by
    bv_omega
  refine h.dword (fun i hi => ?_) fun i hi => ?_
  · rw [hadd]
    exact hmaps (k+i) (by omega)
  · rw [hadd]
    exact hread (k+i) (by omega)

section Header
variable {back : Word} {e : Phdr} (h : OnStack pages s [back] m) (hs : StackApart pages)
  (he : e = Phdr.read pages m s.ebx)
  (hmaps : ∀ i < 32, (pages (s.ebx+BitVec.ofNat 32 i)).isSome)
  (hread : ∀ i < 32, ∀ x, pages (s.ebx+BitVec.ofNat 32 i) = some x → ¬ StackByte pages x)
include h hs he hmaps hread

/-- The arguments are fields of the header at ebx. -/
lemma pushArgs_spec (next : Word) : ∃ s', s.pushArgs pages next = some s' ∧
    OnStack pages s' [next,e.vaddr,e.offset+kernelBinBaseAddr,e.filesz,back] m ∧
    SameRegs s s' := by
  have hsize : readDword pages s.mem (s.ebx+16) = some e.filesz :=
    (h.field (k := 16) hmaps hread (by omega)).trans (by rw [he]; rfl)
  obtain ⟨mem₁,hpush₁,h₁⟩ := h.push hs (by simp) e.filesz
  have hoff : readDword pages mem₁ (s.ebx+4) = some e.offset :=
    (h₁.field (k := 4) hmaps hread (by omega)).trans (by rw [he]; rfl)
  have h₂ : OnStack pages { s with
      eax := e.offset+kernelBinBaseAddr
      esp := s.esp-4
      mem := mem₁ } [e.filesz,back] m := h₁.of_eq rfl rfl
  obtain ⟨mem₃,hpush₃,h₃⟩ := h₂.push hs (by simp) (e.offset+kernelBinBaseAddr)
  have hdst : readDword pages mem₃ (s.ebx+8) = some e.vaddr :=
    (h₃.field (k := 8) hmaps hread (by omega)).trans (by rw [he]; rfl)
  obtain ⟨mem₄,hpush₄,h₄⟩ := h₃.push hs (by simp) e.vaddr
  obtain ⟨mem₅,hpush₅,h₅⟩ := h₄.push hs (by simp) next
  exact ⟨_,bind_some_of hsize (bind_some_of hpush₁ (bind_some_of hoff (bind_some_of hpush₃
    (bind_some_of hdst (bind_some_of hpush₄ hpush₅))))),h₅,⟨rfl,rfl,rfl⟩⟩

/-- The call copies the bytes of the header at ebx, if its destination is mapped. -/
theorem copySegment_runs (next : Word)
    (hfrom : ∀ i < e.filesz.toNat,
      (pages (kernelBinBaseAddr+e.offset+BitVec.ofNat 32 i)).isSome)
    (hto : ∀ i < e.filesz.toNat, (e.place pages i).isSome)
    (hsrc : ∀ i < e.filesz.toNat, ∀ x,
      pages (kernelBinBaseAddr+e.offset+BitVec.ofNat 32 i) = some x → ¬ StackByte pages x)
    (hdst : ∀ i < e.filesz.toNat, ∀ x, e.place pages i = some x → ¬ StackByte pages x)
    (hne : ∀ i < e.filesz.toNat, ∀ j < e.filesz.toNat,
      pages (kernelBinBaseAddr+e.offset+BitVec.ofNat 32 i) ≠ e.place pages j) :
    ∃ s', s.copySegment pages next = some s' ∧ SameRegs s s' ∧
      OnStack pages s' [back] (copyBytes pages (e.file pages m) e.vaddr e.filesz.toNat m) := by
  obtain ⟨s₁,hrun₁,h₁,hregs₁⟩ := pushArgs_spec h hs he hmaps hread next
  rw [BitVec.add_comm e.offset] at h₁
  obtain ⟨s₂,hrun₂,h₂,heip,hregs₂⟩ := memCpy_runs h₁ hs (by simp) hfrom hto hsrc hdst hne
  have hregs := hregs₁.trans hregs₂
  refine ⟨_,bind_some_of hrun₁ (bind_some_of hrun₂ (if_pos heip)),
    ⟨hregs.ebx,hregs.ecx,hregs.edx⟩,?_,h₂.words.2.2.2,h₂.off⟩
  refine (congrArg (·+12) h₂.esp).trans ?_
  unfold slot
  simp only [List.length_cons,List.length_nil]
  bv_omega

/-- If the call returns, the destination of the header at ebx is mapped. -/
theorem copySegment_maps {next : Word} (hrun : s.copySegment pages next = some s') :
    ∀ i < e.filesz.toNat, (e.place pages i).isSome := by
  obtain ⟨s₁,hrun₁,h₁,-⟩ := pushArgs_spec h hs he hmaps hread next
  obtain ⟨u,hu,hrest⟩ := Option.bind_eq_some_iff.mp hrun
  obtain rfl := Option.some.inj (hrun₁.symm.trans hu)
  obtain ⟨v,hv,-⟩ := Option.bind_eq_some_iff.mp hrest
  exact memCpy_maps h₁ hs (by simp) hv

end Header
end Segment
end OsKernel

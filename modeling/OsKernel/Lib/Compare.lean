import OsKernel.Lib.Stdio
import OsKernel.Library.OrderSign

/-! The comparisons memcmp and strcmp. Both look at plain characters, which are signed, so that a
byte from 128 on comes before all others. -/
namespace OsKernel
open ByteMemory OrderSign

/-- The loop runs once for each byte of size. -/
def memcmpLoop (mem : ByteMemory) (a b : ℕ) : ℕ → BitVec 32
  | 0 => 0
  | size+1 =>
    if (mem a).toInt ≠ (mem b).toInt then if (mem a).toInt > (mem b).toInt then 1 else -1
    else memcmpLoop mem (a+1) (b+1) size

def memcmp (mem : ByteMemory) (a b : ℕ) (size : BitVec 32) : Except Panic (BitVec 32) :=
  assert (a ≠ 0 ∨ b ≠ 0) "memcmp" "a != NULL || b != NULL" >>= fun _ =>
    .ok (memcmpLoop mem a b size.toNat)

def strcmpLoop (mem : ByteMemory) (a b : ℕ) : ℕ → Except Panic (BitVec 8)
  | 0 => .error (.undefined "strcmp")
  | rounds+1 =>
    if mem a ≠ 0 ∧ (mem a).toInt = (mem b).toInt then strcmpLoop mem (a+1) (b+1) rounds
    else .ok (if (mem a).toInt < (mem b).toInt then -1
      else if (mem a).toInt > (mem b).toInt then 1 else 0)

def strcmp (mem : ByteMemory) (a b rounds : ℕ) : Except Panic (BitVec 8) :=
  assert (a ≠ 0 ∧ b ≠ 0) "strcmp" "a != NULL && b != NULL" >>= fun _ => strcmpLoop mem a b rounds

/-- An array of size bytes. -/
structure ByteArrayAt (mem : ByteMemory) (size : BitVec 32) (a : ℕ) (as : List (BitVec 8)) :
    Prop where
  bytes : Bytes mem a as
  length : as.length = size.toNat
  nonnull : a ≠ 0

/-- A string in the address space, whose end is found within the given rounds. -/
structure StringAt (mem : ByteMemory) (rounds a : ℕ) (text : List (BitVec 8)) : Prop where
  string : CString mem a text
  nonnull : a ≠ 0
  fits : a+text.length < 2^32
  rounds : text.length < rounds

/-- The result of a comparison of two arrays by their unsigned bytes. -/
structure ComparesArrays (as bs : List (BitVec 8)) (r : ℤ) : Prop where
  zero : r = 0 ↔ as = bs
  first : ∀ x y, FirstDiff as bs x y → r = sign x.toNat y.toNat

/-- The result of a comparison of two texts in the lexicographic order of their unsigned bytes. -/
structure ComparesStrings (as bs : List (BitVec 8)) (r : ℤ) : Prop where
  zero : r = 0 ↔ as = bs
  lex : r = sign (as.map BitVec.toNat) (bs.map BitVec.toNat)

/-- A comparison is a total order of what is found at the addresses. -/
structure TotalOrder {w : ℕ} (holds : ℕ → List (BitVec 8) → Prop)
    (cmp : ℕ → ℕ → Except Panic (BitVec w)) : Prop where
  returns : ∀ a as b bs, holds a as → holds b bs → ∃ r, cmp a b = .ok r
  total : ∀ a as b bs r r', holds a as → holds b bs → cmp a b = .ok r → cmp b a = .ok r' →
    r.toInt ≤ 0 ∨ r'.toInt ≤ 0
  antisymm : ∀ a as b bs r r', holds a as → holds b bs → cmp a b = .ok r → cmp b a = .ok r' →
    r.toInt ≤ 0 → r'.toInt ≤ 0 → as = bs
  trans : ∀ a as b bs c cs r r' r'', holds a as → holds b bs → holds c cs → cmp a b = .ok r →
    cmp b c = .ok r' → cmp a c = .ok r'' → r.toInt ≤ 0 → r'.toInt ≤ 0 → r''.toInt ≤ 0

/-- The first bytes that differ are both below 128, or both not. -/
def SameHalf (as bs : List (BitVec 8)) : Prop :=
  ∀ x y, FirstDiff as bs x y → (x.toNat < 128 ↔ y.toNat < 128)

section Bytes
variable {x y : BitVec 8} {as bs : List (BitVec 8)}

lemma sign_toInt_eq_iff (h : x ≠ y) :
    sign x.toInt y.toInt = sign x.toNat y.toNat ↔ (x.toNat < 128 ↔ y.toNat < 128) := by
  have hx := x.isLt
  have hy := y.isLt
  have hne : x.toNat ≠ y.toNat := fun he => h (BitVec.eq_of_toNat_eq he)
  rw [sign,sign,BitVec.toInt_eq_toNat_cond,BitVec.toInt_eq_toNat_cond]
  split <;> split <;> split <;> omega

lemma map_toInt_inj : as.map BitVec.toInt = bs.map BitVec.toInt ↔ as = bs :=
  (List.map_injective_iff.mpr fun _ _ => BitVec.eq_of_toInt_eq).eq_iff

lemma sign_toInt (h : FirstDiff as bs x y) :
    sign (as.map BitVec.toInt) (bs.map BitVec.toInt) = sign x.toInt y.toInt :=
  sign_of_firstDiff (h.map fun _ _ => BitVec.eq_of_toInt_eq)

lemma sign_toNat (h : FirstDiff as bs x y) :
    sign (as.map BitVec.toNat) (bs.map BitVec.toNat) = sign x.toNat y.toNat :=
  sign_of_firstDiff (h.map fun _ _ => BitVec.eq_of_toNat_eq)

/-- The signed comparison is the unsigned one where the first difference is within a half. -/
lemma comparesArrays_iff :
    ComparesArrays as bs (sign (as.map BitVec.toInt) (bs.map BitVec.toInt)) ↔ SameHalf as bs := by
  constructor
  · intro h x y hd
    rw [← sign_toInt_eq_iff hd.1,← sign_toInt hd]
    exact h.first x y hd
  · intro h
    refine ⟨sign_eq_zero.trans map_toInt_inj,fun x y hd => ?_⟩
    rw [sign_toInt hd]
    exact (sign_toInt_eq_iff hd.1).mpr (h x y hd)

/-- The zeros at the end take part in the comparison. -/
lemma comparesStrings_iff (ha : ∀ c ∈ as, c ≠ 0) (hb : ∀ c ∈ bs, c ≠ 0) :
    ComparesStrings as bs (sign ((as++[0]).map BitVec.toInt) ((bs++[0]).map BitVec.toInt)) ↔
      SameHalf (as++[0]) (bs++[0]) := by
  have hpos {l : List (BitVec 8)} (hl : ∀ c ∈ l, c ≠ 0) : ∀ n ∈ l.map BitVec.toNat, 0 < n := by
    intro n hn
    obtain ⟨c,hc,rfl⟩ := List.mem_map.mp hn
    exact Nat.pos_of_ne_zero fun h0 => hl c hc (BitVec.eq_of_toNat_eq h0)
  have hended : sign ((as++[0]).map BitVec.toNat) ((bs++[0]).map BitVec.toNat) =
      sign (as.map BitVec.toNat) (bs.map BitVec.toNat) := by
    rw [List.map_append,List.map_append]
    exact sign_ended (hpos ha) (hpos hb)
  constructor
  · intro h x y hd
    rw [← sign_toInt_eq_iff hd.1,← sign_toInt hd,← sign_toNat hd,hended]
    exact h.lex
  · intro h
    refine ⟨sign_eq_zero.trans (map_toInt_inj.trans (List.append_left_inj _)),?_⟩
    rw [← hended]
    by_cases heq : as = bs
    · subst heq
      rw [sign_self,sign_self]
    · obtain ⟨x,y,hd⟩ := exists_firstDiff_ended (fun hm => ha 0 hm rfl) (fun hm => hb 0 hm rfl) heq
      rw [sign_toInt hd,sign_toNat hd]
      exact (sign_toInt_eq_iff hd.1).mpr (h x y hd)

end Bytes

section Runs
variable {mem : ByteMemory} {size : BitVec 32} {rounds a b n : ℕ} {as bs : List (BitVec 8)}

lemma toInt_inj {x y : BitVec 8} : x.toInt = y.toInt ↔ x = y :=
  ⟨BitVec.eq_of_toInt_eq,congrArg _⟩

lemma memcmpLoop_of_ne (h : (mem a).toInt ≠ (mem b).toInt) :
    (memcmpLoop mem a b (n+1)).toInt = sign (mem a).toInt (mem b).toInt := by
  rw [memcmpLoop,if_pos h]
  rcases lt_or_gt_of_ne h with hlt|hgt
  · rw [if_neg (not_lt.mpr hlt.le),sign_of_lt hlt]
    rfl
  · rw [if_pos hgt,sign_of_gt hgt]
    rfl

lemma memcmpLoop_of_eq (h : (mem a).toInt = (mem b).toInt) :
    memcmpLoop mem a b (n+1) = memcmpLoop mem (a+1) (b+1) n := by
  rw [memcmpLoop,if_neg (not_not.mpr h)]

/-- The loop of memcmp compares the signed bytes. -/
theorem memcmpLoop_eq (ha : Bytes mem a as) (hb : Bytes mem b bs) (hlen : as.length = n)
    (hlen' : bs.length = n) :
    (memcmpLoop mem a b n).toInt = sign (as.map BitVec.toInt) (bs.map BitVec.toInt) := by
  induction n generalizing a b as bs with
  | zero =>
    rw [List.length_eq_zero_iff.mp hlen,List.length_eq_zero_iff.mp hlen',sign_self]
    rfl
  | succ n ih =>
    obtain ⟨x,as,rfl⟩ := List.exists_cons_of_length_eq_add_one hlen
    obtain ⟨y,bs,rfl⟩ := List.exists_cons_of_length_eq_add_one hlen'
    rw [List.map_cons,List.map_cons,← ha.1,← hb.1]
    by_cases hxy : (mem a).toInt = (mem b).toInt
    · rw [memcmpLoop_of_eq hxy,hxy,sign_cons_self]
      exact ih ha.2 hb.2 (Nat.succ.inj hlen) (Nat.succ.inj hlen')
    · rw [memcmpLoop_of_ne hxy,sign_cons_of_ne hxy]

/-- The last round of strcmp, where it leaves the loop. -/
lemma strcmpLoop_last (h : ¬ (mem a ≠ 0 ∧ (mem a).toInt = (mem b).toInt)) :
    ∃ r, strcmpLoop mem a b (n+1) = .ok r ∧ r.toInt = sign (mem a).toInt (mem b).toInt := by
  refine ⟨_,by rw [strcmpLoop,if_neg h],?_⟩
  rw [sign]
  split
  · rfl
  · split <;> rfl

/-- The heads differ, so that strcmp and memcmp end here. -/
lemma strcmpLoop_of_ne (h : (mem a).toInt ≠ (mem b).toInt) (s t : List ℤ) (k : ℕ) :
    ∃ r, strcmpLoop mem a b (n+1) = .ok r ∧ r.toInt = sign ((mem a).toInt::s) ((mem b).toInt::t) ∧
      r.toInt = (memcmpLoop mem a b (k+1)).toInt := by
  obtain ⟨r,hrun,hsign⟩ := strcmpLoop_last (n := n) fun he => h he.2
  exact ⟨r,hrun,hsign.trans (sign_cons_of_ne h).symm,hsign.trans (memcmpLoop_of_ne h).symm⟩

/-- The loop of strcmp compares the signed bytes up to the zeros, as memcmp does for the bytes of
the shorter string and its zero. -/
theorem strcmpLoop_eq (ha : CString mem a as) (hb : CString mem b bs) (hr : as.length < rounds) :
    ∃ r, strcmpLoop mem a b rounds = .ok r ∧
      r.toInt = sign ((as++[0]).map BitVec.toInt) ((bs++[0]).map BitVec.toInt) ∧
      r.toInt = (memcmpLoop mem a b (min as.length bs.length+1)).toInt := by
  induction as generalizing a b bs rounds with
  | nil =>
    obtain ⟨rounds,rfl⟩ := Nat.exists_eq_succ_of_ne_zero (Nat.ne_of_gt hr)
    cases bs with
    | nil =>
      obtain ⟨r,hrun,hsign⟩ := strcmpLoop_last (n := rounds) (b := b) fun h => h.1 ha.end
      rw [ha.end,hb.end,sign_self] at hsign
      refine ⟨r,hrun,hsign.trans sign_self.symm,?_⟩
      rw [hsign,List.length_nil,Nat.min_self,memcmpLoop_of_eq (by rw [ha.end,hb.end])]
      rfl
    | cons y bs =>
      have hne : (mem a).toInt ≠ (mem b).toInt := fun h =>
        hb.ne_zero (by rw [← hb.head,← toInt_inj.mp h,ha.end])
      rw [List.nil_append,List.cons_append,List.map_cons,List.map_cons,← ha.end,← hb.head]
      exact strcmpLoop_of_ne hne _ _ _
  | cons x as ih =>
    obtain ⟨rounds,rfl⟩ := Nat.exists_eq_succ_of_ne_zero (Nat.ne_of_gt (Nat.zero_lt_of_lt hr))
    cases bs with
    | nil =>
      have hne : (mem a).toInt ≠ (mem b).toInt := fun h =>
        ha.ne_zero (by rw [← ha.head,toInt_inj.mp h,hb.end])
      rw [List.nil_append,List.cons_append,List.map_cons,List.map_cons,← ha.head,← hb.end]
      exact strcmpLoop_of_ne hne _ _ _
    | cons y bs =>
      rw [List.cons_append,List.cons_append,List.map_cons,List.map_cons,← ha.head,← hb.head]
      by_cases hxy : (mem a).toInt = (mem b).toInt
      · obtain ⟨r,hrun,hsign,hcmp⟩ := ih ha.tail hb.tail (Nat.lt_of_succ_lt_succ hr)
        refine ⟨r,?_,?_,?_⟩
        · rw [strcmpLoop,if_pos ⟨by rw [ha.head]; exact ha.ne_zero,hxy⟩,hrun]
        · rw [hsign,hxy,sign_cons_self]
        · rw [hcmp,List.length_cons,List.length_cons,Nat.succ_min_succ,memcmpLoop_of_eq hxy]
      · exact strcmpLoop_of_ne hxy _ _ _

end Runs

section Orders
variable {mem : ByteMemory} {size : BitVec 32} {rounds a b p q : ℕ} {as bs xs ys : List (BitVec 8)}

theorem memcmp_runs (ha : ByteArrayAt mem size a as) (hb : ByteArrayAt mem size b bs) :
    ∃ r, memcmp mem a b size = .ok r ∧
      r.toInt = sign (as.map BitVec.toInt) (bs.map BitVec.toInt) := by
  refine ⟨memcmpLoop mem a b size.toNat,?_,memcmpLoop_eq ha.bytes hb.bytes ha.length hb.length⟩
  rw [memcmp,assert_of (.inl ha.nonnull),bind_of_ok rfl]

theorem strcmp_runs (ha : StringAt mem rounds a as) (hb : StringAt mem rounds b bs) :
    ∃ r, strcmp mem a b rounds = .ok r ∧
      r.toInt = sign ((as++[0]).map BitVec.toInt) ((bs++[0]).map BitVec.toInt) ∧
      r.toInt = (memcmpLoop mem a b (min as.length bs.length+1)).toInt := by
  rw [strcmp,assert_of ⟨ha.nonnull,hb.nonnull⟩,bind_of_ok rfl]
  exact strcmpLoop_eq ha.string hb.string ha.rounds

/-- A comparison whose result is the sign of keys in a linear order. -/
lemma totalOrder_of_key {w : ℕ} {holds : ℕ → List (BitVec 8) → Prop}
    {cmp : ℕ → ℕ → Except Panic (BitVec w)} {key : List (BitVec 8) → List ℤ}
    (hkey : Function.Injective key) (h : ∀ a as b bs, holds a as → holds b bs →
      ∃ r, cmp a b = .ok r ∧ r.toInt = sign (key as) (key bs)) : TotalOrder holds cmp := by
  have hle {a as b bs r} (ha : holds a as) (hb : holds b bs) (hr : cmp a b = .ok r) :
      r.toInt ≤ 0 ↔ key as ≤ key bs := by
    obtain ⟨r',hr',hs⟩ := h a as b bs ha hb
    obtain rfl := Except.ok.inj (hr.symm.trans hr')
    rw [hs,sign_le_zero]
  refine ⟨?_,?_,?_,?_⟩
  · intro a as b bs ha hb
    obtain ⟨r,hr,-⟩ := h a as b bs ha hb
    exact ⟨r,hr⟩
  · intro a as b bs r r' ha hb hr hr'
    rw [hle ha hb hr,hle hb ha hr']
    exact le_total _ _
  · intro a as b bs r r' ha hb hr hr'
    rw [hle ha hb hr,hle hb ha hr']
    exact fun h₁ h₂ => hkey (le_antisymm h₁ h₂)
  · intro a as b bs c cs r r' r'' ha hb hc hr hr' hr''
    rw [hle ha hb hr,hle hb hc hr',hle ha hc hr'']
    exact le_trans

theorem memcmp_totalOrder : TotalOrder (ByteArrayAt mem size) fun a b => memcmp mem a b size :=
  totalOrder_of_key (fun _ _ => map_toInt_inj.mp) fun _ _ _ _ => memcmp_runs

theorem strcmp_totalOrder : TotalOrder (StringAt mem rounds) fun a b => strcmp mem a b rounds := by
  have hkey : Function.Injective fun l : List (BitVec 8) => (l++[0]).map BitVec.toInt :=
    fun as bs h => (List.append_left_inj _).mp (map_toInt_inj.mp h)
  refine totalOrder_of_key hkey fun a as b bs ha hb => ?_
  obtain ⟨r,hr,hs,-⟩ := strcmp_runs ha hb
  exact ⟨r,hr,hs⟩

/-- strcmp is memcmp on the bytes of the shorter string and its zero. -/
theorem strcmp_eq_memcmp (ha : StringAt mem rounds a as) (hb : StringAt mem rounds b bs) :
    ∃ n n' r r', strlen mem a rounds = .ok n ∧ strlen mem b rounds = .ok n' ∧
      memcmp mem a b (BitVec.ofNat 32 (min n n'+1)) = .ok r ∧ strcmp mem a b rounds = .ok r' ∧
      r'.toInt = r.toInt := by
  obtain ⟨r,hr,-,hcmp⟩ := strcmp_runs ha hb
  have hfits := ha.fits
  have hsize : (BitVec.ofNat 32 (min as.length bs.length+1)).toNat =
      min as.length bs.length+1 := by
    have hpos := Nat.pos_of_ne_zero ha.nonnull
    rw [BitVec.toNat_ofNat]
    exact Nat.mod_eq_of_lt (by omega)
  refine ⟨_,_,_,r,strlen_eq ha.string ha.rounds ha.nonnull,
    strlen_eq hb.string hb.rounds hb.nonnull,?_,hr,hcmp⟩
  rw [memcmp,assert_of (.inl ha.nonnull),bind_of_ok rfl,hsize]

/-- Two arrays and two strings are compared as in C, where the characters have no sign. -/
structure ComparesAsC (mem : ByteMemory) (size : BitVec 32) (rounds p q : ℕ)
    (xs ys : List (BitVec 8)) (a b : ℕ) (as bs : List (BitVec 8)) : Prop where
  arrays : ∃ r, memcmp mem p q size = .ok r ∧ ComparesArrays xs ys r.toInt
  strings : ∃ r, strcmp mem a b rounds = .ok r ∧ ComparesStrings as bs r.toInt
  arraysOrder : TotalOrder (ByteArrayAt mem size) fun a b => memcmp mem a b size
  stringsOrder : TotalOrder (StringAt mem rounds) fun a b => strcmp mem a b rounds
  agree : ∃ n n' r r', strlen mem a rounds = .ok n ∧ strlen mem b rounds = .ok n' ∧
    memcmp mem a b (BitVec.ofNat 32 (min n n'+1)) = .ok r ∧ strcmp mem a b rounds = .ok r' ∧
    r'.toInt = r.toInt

/-- The comparisons are those of C exactly where the first difference does not depend on the sign
of the characters. -/
theorem comparesAsC_iff (hp : ByteArrayAt mem size p xs) (hq : ByteArrayAt mem size q ys)
    (ha : StringAt mem rounds a as) (hb : StringAt mem rounds b bs) :
    ComparesAsC mem size rounds p q xs ys a b as bs ↔
      SameHalf xs ys ∧ SameHalf (as++[0]) (bs++[0]) := by
  obtain ⟨r,hr,hsign⟩ := memcmp_runs hp hq
  obtain ⟨r',hr',hsign',-⟩ := strcmp_runs ha hb
  rw [← comparesArrays_iff,← comparesStrings_iff ha.string.nonzero hb.string.nonzero,← hsign,
    ← hsign']
  constructor
  · intro h
    obtain ⟨t,ht,hmem⟩ := h.arrays
    obtain ⟨t',ht',hstr⟩ := h.strings
    obtain rfl := Except.ok.inj (hr.symm.trans ht)
    obtain rfl := Except.ok.inj (hr'.symm.trans ht')
    exact ⟨hmem,hstr⟩
  · rintro ⟨hmem,hstr⟩
    exact ⟨⟨r,hr,hmem⟩,⟨r',hr',hstr⟩,memcmp_totalOrder,strcmp_totalOrder,strcmp_eq_memcmp ha hb⟩

end Orders

section Letters

/-- Two strings of one character, at the addresses 16 and 32. -/
def twoLetters (x y : BitVec 8) : ByteMemory :=
  fun p => if p = 16 then x else if p = 32 then y else 0

variable {x y : BitVec 8}

lemma twoLetters_arrays : ByteArrayAt (twoLetters x y) 1 16 [x] ∧
    ByteArrayAt (twoLetters x y) 1 32 [y] :=
  ⟨⟨⟨rfl,trivial⟩,rfl,by decide⟩,⟨⟨rfl,trivial⟩,rfl,by decide⟩⟩

lemma twoLetters_strings (hx : x ≠ 0) (hy : y ≠ 0) : StringAt (twoLetters x y) 2 16 [x] ∧
    StringAt (twoLetters x y) 2 32 [y] := by
  have hstring (a : ℕ) (c : BitVec 8) (hc : c ≠ 0) (h0 : twoLetters x y a = c)
      (h1 : twoLetters x y (a+1) = 0) : CString (twoLetters x y) a [c] :=
    ⟨⟨h0,h1,trivial⟩,fun d hd => List.mem_singleton.mp hd ▸ hc⟩
  exact ⟨⟨hstring 16 x hx rfl rfl,by decide,by simp,by simp⟩,
    ⟨hstring 32 y hy rfl rfl,by decide,by simp,by simp⟩⟩

end Letters

theorem comparesAsC_letters :
    ComparesAsC (twoLetters 97 98) 1 2 16 32 [97] [98] 16 32 [97] [98] ↔
      SameHalf [97] [98] ∧ SameHalf ([97]++[0]) ([98]++[0]) :=
  comparesAsC_iff twoLetters_arrays.1 twoLetters_arrays.2
    (twoLetters_strings (by decide) (by decide)).1 (twoLetters_strings (by decide) (by decide)).2

/-- The letter a is greater than the byte 200. -/
theorem comparesAsC_fails : memcmp (twoLetters 97 200) 16 32 1 = .ok 1 ∧
    strcmp (twoLetters 97 200) 16 32 2 = .ok 1 ∧
    ¬ ComparesAsC (twoLetters 97 200) 1 2 16 32 [97] [200] 16 32 [97] [200] := by
  have hmem : memcmp (twoLetters 97 200) 16 32 1 = .ok 1 := by decide
  refine ⟨hmem,by decide,fun h => ?_⟩
  obtain ⟨r,hr,hcmp⟩ := h.arrays
  obtain rfl := Except.ok.inj (hmem.symm.trans hr)
  exact absurd (hcmp.first 97 200 (firstDiff_cons_of_ne (by decide))) (by decide)

end OsKernel

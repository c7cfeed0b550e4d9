import OsKernel.Lib.Stdio

/-! The searches for a character in a string: strchr, strrchr and strchrs. A plain char is signed,
so that a byte from 128 on is a negative number there, while a uint8_t has no sign. -/
namespace OsKernel
open ByteMemory

/-- Both characters are plain ones. -/
def strchrLoop (mem : ByteMemory) (ch : BitVec 8) (str : ℕ) : ℕ → Except Panic ℕ
  | 0 => .error (.undefined "strchr")
  | rounds+1 =>
    if mem str ≠ 0 then
      if (mem str).toInt = ch.toInt then .ok str else strchrLoop mem ch (str+1) rounds
    else .ok 0

def strchr (mem : ByteMemory) (str : ℕ) (ch : BitVec 8) (rounds : ℕ) : Except Panic ℕ :=
  assert (str ≠ 0) "strchr" "str != NULL" >>= fun _ => strchrLoop mem ch str rounds

/-- The character that is looked for is a uint8_t. -/
def strrchrLoop (mem : ByteMemory) (ch : BitVec 8) (str lastChrptr : ℕ) : ℕ → Except Panic ℕ
  | 0 => .error (.undefined "strrchr")
  | rounds+1 =>
    if (mem str).toInt ≠ 0 then
      let lastChrptr := if (ch.toNat : ℤ) = (mem str).toInt then str else lastChrptr
      strrchrLoop mem ch (str+1) lastChrptr rounds
    else .ok lastChrptr

def strrchr (mem : ByteMemory) (str : ℕ) (ch : BitVec 8) (rounds : ℕ) : Except Panic ℕ :=
  assert (str ≠ 0) "strrchr" "str != NULL" >>= fun _ => strrchrLoop mem ch str 0 rounds

/-- The character that is looked for is a uint8_t. -/
def strchrsLoop (mem : ByteMemory) (ch : BitVec 8) (str chCnt : ℕ) : ℕ → Except Panic ℕ
  | 0 => .error (.undefined "strchrs")
  | rounds+1 =>
    if mem str ≠ 0 then
      let chCnt := if (mem str).toInt = (ch.toNat : ℤ) then (chCnt+1) % 2^32 else chCnt
      strchrsLoop mem ch (str+1) chCnt rounds
    else .ok chCnt

/-- The count is returned as a pointer. -/
def strchrs (mem : ByteMemory) (str : ℕ) (ch : BitVec 8) (rounds : ℕ) : Except Panic ℕ :=
  assert (str ≠ 0) "strchrs" "str != NULL" >>= fun _ => strchrsLoop mem ch str 0 rounds

/-- The first position of a byte in a list. -/
def FirstAt (l : List (BitVec 8)) (c : BitVec 8) (i : ℕ) : Prop :=
  l[i]? = some c ∧ ∀ j, j < i → l[j]? ≠ some c

/-- The last position of a byte in a list. -/
def LastAt (l : List (BitVec 8)) (c : BitVec 8) (i : ℕ) : Prop :=
  l[i]? = some c ∧ ∀ j, i < j → l[j]? ≠ some c

/-- A pointer to the position of a string that P describes, or another one if there is none. -/
def PointsTo (P : ℕ → Prop) (str other p : ℕ) : Prop :=
  (∃ i, P i ∧ p = str+i) ∨ (∀ i, ¬ P i) ∧ p = other

section Positions
variable {l : List (BitVec 8)} {b c : BitVec 8} {i str other p : ℕ}

theorem firstAt_cons_self : FirstAt (c::l) c 0 := ⟨rfl,fun j hj => absurd hj (Nat.not_lt_zero j)⟩

theorem firstAt_cons_of_ne (h : b ≠ c) : FirstAt (b::l) c i ↔ ∃ j, i = j+1 ∧ FirstAt l c j := by
  constructor
  · rintro ⟨hi,hmin⟩
    cases i with
    | zero => exact absurd (Option.some.inj hi) h
    | succ j => exact ⟨j,rfl,hi,fun k hk => hmin (k+1) (Nat.succ_lt_succ hk)⟩
  · rintro ⟨j,rfl,hj,hmin⟩
    refine ⟨hj,fun k hk => ?_⟩
    cases k with
    | zero => exact fun he => h (Option.some.inj he)
    | succ k => exact hmin k (Nat.lt_of_succ_lt_succ hk)

theorem lastAt_cons_succ : LastAt (b::l) c (i+1) ↔ LastAt l c i := by
  constructor
  · rintro ⟨hi,hmax⟩
    exact ⟨hi,fun j hj => hmax (j+1) (Nat.succ_lt_succ hj)⟩
  · rintro ⟨hi,hmax⟩
    refine ⟨hi,fun j hj => ?_⟩
    cases j with
    | zero => exact absurd hj (Nat.not_lt_zero _)
    | succ j => exact hmax j (Nat.lt_of_succ_lt_succ hj)

theorem lastAt_cons_zero (h : c ∉ l) : LastAt (c::l) c 0 := by
  refine ⟨rfl,fun j hj he => ?_⟩
  obtain ⟨j,rfl⟩ := Nat.exists_eq_succ_of_ne_zero hj.ne'
  exact h (List.mem_iff_getElem?.mpr ⟨j,he⟩)

theorem FirstAt.mem (h : FirstAt l c i) : c ∈ l := List.mem_iff_getElem?.mpr ⟨i,h.1⟩

theorem LastAt.mem (h : LastAt l c i) : c ∈ l := List.mem_iff_getElem?.mpr ⟨i,h.1⟩

theorem exists_firstAt (h : c ∈ l) : ∃ i, FirstAt l c i := by
  induction l with
  | nil => simp at h
  | cons b l ih =>
    by_cases hb : b = c
    · subst hb
      exact ⟨0,firstAt_cons_self⟩
    · obtain ⟨i,hi⟩ := ih ((List.mem_cons.mp h).resolve_left (Ne.symm hb))
      exact ⟨i+1,(firstAt_cons_of_ne hb).mpr ⟨i,rfl,hi⟩⟩

theorem exists_lastAt (h : c ∈ l) : ∃ i, LastAt l c i := by
  induction l with
  | nil => simp at h
  | cons b l ih =>
    by_cases hl : c ∈ l
    · obtain ⟨i,hi⟩ := ih hl
      exact ⟨i+1,lastAt_cons_succ.mpr hi⟩
    · obtain rfl := (List.mem_cons.mp h).resolve_right hl
      exact ⟨0,lastAt_cons_zero hl⟩

theorem PointsTo.next {P Q : ℕ → Prop} (h : PointsTo P (str+1) other p)
    (hs : ∀ i, Q (i+1) ↔ P i) (h0 : ¬ Q 0) : PointsTo Q str other p := by
  rcases h with ⟨i,hi,rfl⟩ | ⟨hn,rfl⟩
  · exact .inl ⟨i+1,(hs i).mpr hi,by omega⟩
  · refine .inr ⟨fun i hq => ?_,rfl⟩
    cases i with
    | zero => exact h0 hq
    | succ i => exact hn i ((hs i).mp hq)

end Positions

section Searches
variable {mem : ByteMemory} {text : List (BitVec 8)} {ch b : BitVec 8}
  {str last cnt rounds : ℕ}

/-- After the promotions to int, only a character below 128 equals the same byte without sign. -/
theorem toNat_eq_toInt_iff : (ch.toNat : ℤ) = b.toInt ↔ ch = b ∧ ch.toNat < 128 := by
  have h₁ := ch.isLt
  have h₂ := b.isLt
  rw [BitVec.toInt_eq_toNat_cond]
  constructor
  · intro h
    split at h
    · exact ⟨BitVec.eq_of_toNat_eq (by omega),by omega⟩
    · omega
  · rintro ⟨rfl,hlt⟩
    rw [if_pos (by omega)]

theorem strchrLoop_runs (h : CString mem str text) (hr : text.length < rounds) :
    ∃ p, strchrLoop mem ch str rounds = .ok p ∧ PointsTo (FirstAt text ch) str 0 p := by
  induction text generalizing str rounds with
  | nil =>
    obtain ⟨rounds,rfl⟩ := Nat.exists_eq_succ_of_ne_zero (Nat.ne_of_gt hr)
    exact ⟨0,by rw [strchrLoop,if_neg (not_not.mpr h.end)],.inr ⟨fun i hi => by simp [FirstAt] at hi,rfl⟩⟩
  | cons b text ih =>
    obtain ⟨rounds,rfl⟩ := Nat.exists_eq_succ_of_ne_zero (Nat.ne_of_gt (Nat.zero_lt_of_lt hr))
    rw [strchrLoop,h.head,if_pos h.ne_zero]
    by_cases hb : b = ch
    · subst hb
      rw [if_pos rfl]
      exact ⟨str,rfl,.inl ⟨0,firstAt_cons_self,rfl⟩⟩
    · rw [if_neg fun he => hb (BitVec.eq_of_toInt_eq he)]
      obtain ⟨p,hp,hpt⟩ := ih h.tail (Nat.lt_of_succ_lt_succ hr)
      refine ⟨p,hp,hpt.next (fun i => ?_) fun h0 => ?_⟩
      · rw [firstAt_cons_of_ne hb]
        exact ⟨fun ⟨j,hj,hf⟩ => Nat.succ.inj hj ▸ hf,fun hf => ⟨i,rfl,hf⟩⟩
      · obtain ⟨j,hj,-⟩ := (firstAt_cons_of_ne hb).mp h0
        exact absurd hj (Nat.succ_ne_zero j).symm

/-- A character from 128 on is never found. -/
theorem strrchrLoop_runs (last : ℕ) (h : CString mem str text) (hr : text.length < rounds) :
    ∃ p, strrchrLoop mem ch str last rounds = .ok p ∧
      (ch.toNat < 128 → PointsTo (LastAt text ch) str last p) ∧ (128 ≤ ch.toNat → p = last) := by
  induction text generalizing str last rounds with
  | nil =>
    obtain ⟨rounds,rfl⟩ := Nat.exists_eq_succ_of_ne_zero (Nat.ne_of_gt hr)
    refine ⟨last,?_,fun _ => .inr ⟨fun i hi => by simp [LastAt] at hi,rfl⟩,fun _ => rfl⟩
    rw [strrchrLoop,h.end]
    rfl
  | cons b text ih =>
    obtain ⟨rounds,rfl⟩ := Nat.exists_eq_succ_of_ne_zero (Nat.ne_of_gt (Nat.zero_lt_of_lt hr))
    have hb0 : b.toInt ≠ 0 := fun he => h.ne_zero (BitVec.eq_of_toInt_eq he)
    rw [strrchrLoop,h.head,if_pos hb0]
    dsimp only
    by_cases hb : (ch.toNat : ℤ) = b.toInt
    · obtain ⟨rfl,hlt⟩ := toNat_eq_toInt_iff.mp hb
      rw [if_pos hb]
      obtain ⟨p,hp,hpt,-⟩ := ih str h.tail (Nat.lt_of_succ_lt_succ hr)
      refine ⟨p,hp,fun _ => ?_,fun hge => absurd hge (Nat.not_le.mpr hlt)⟩
      rcases hpt hlt with ⟨i,hi,rfl⟩ | ⟨hn,rfl⟩
      · exact .inl ⟨i+1,lastAt_cons_succ.mpr hi,by omega⟩
      · refine .inl ⟨0,lastAt_cons_zero fun hm => ?_,rfl⟩
        obtain ⟨i,hi⟩ := exists_lastAt hm
        exact hn i hi
    · rw [if_neg hb]
      obtain ⟨p,hp,hpt,hge⟩ := ih last h.tail (Nat.lt_of_succ_lt_succ hr)
      refine ⟨p,hp,fun hlt => (hpt hlt).next (fun i => lastAt_cons_succ) fun h0 => ?_,hge⟩
      exact hb (toNat_eq_toInt_iff.mpr ⟨(Option.some.inj h0.1).symm,hlt⟩)

/-- A character from 128 on is never counted. -/
theorem strchrsLoop_eq (h : CString mem str text) (hr : text.length < rounds)
    (hcnt : cnt+text.length < 2^32) : strchrsLoop mem ch str cnt rounds =
      .ok (if ch.toNat < 128 then cnt+text.count ch else cnt) := by
  induction text generalizing str cnt rounds with
  | nil =>
    obtain ⟨rounds,rfl⟩ := Nat.exists_eq_succ_of_ne_zero (Nat.ne_of_gt hr)
    rw [strchrsLoop,if_neg (not_not.mpr h.end)]
    simp
  | cons b text ih =>
    obtain ⟨rounds,rfl⟩ := Nat.exists_eq_succ_of_ne_zero (Nat.ne_of_gt (Nat.zero_lt_of_lt hr))
    simp only [List.length_cons] at hr hcnt
    rw [strchrsLoop,h.head,if_pos h.ne_zero]
    dsimp only
    by_cases hb : (ch.toNat : ℤ) = b.toInt
    · obtain ⟨rfl,hlt⟩ := toNat_eq_toInt_iff.mp hb
      rw [if_pos hb.symm,Nat.mod_eq_of_lt (by omega),ih h.tail (by omega) (by omega),if_pos hlt,
        if_pos hlt,List.count_cons_self]
      congr 1
      omega
    · rw [if_neg fun he => hb he.symm,ih h.tail (by omega) (by omega)]
      by_cases hlt : ch.toNat < 128
      · have hne : b ≠ ch := fun he => hb (toNat_eq_toInt_iff.mpr ⟨he.symm,hlt⟩)
        rw [if_pos hlt,if_pos hlt,List.count_cons_of_ne hne]
      · rw [if_neg hlt,if_neg hlt]

/-- The searches give the first position, the last position and the number of occurrences, and
agree on whether there is one. -/
structure SearchesAgree (mem : ByteMemory) (str : ℕ) (text : List (BitVec 8)) (ch : BitVec 8)
    (rounds : ℕ) : Prop where
  first : ∃ p, strchr mem str ch rounds = .ok p ∧ PointsTo (FirstAt text ch) str 0 p
  last : ∃ p, strrchr mem str ch rounds = .ok p ∧ PointsTo (LastAt text ch) str 0 p
  count : strchrs mem str ch rounds = .ok (text.count ch)
  none : (strchr mem str ch rounds = .ok 0 ↔ ch ∉ text) ∧
    (strrchr mem str ch rounds = .ok 0 ↔ ch ∉ text) ∧
    (strchrs mem str ch rounds = .ok 0 ↔ ch ∉ text)

/-- A pointer into a string is not NULL. -/
theorem PointsTo.eq_zero_iff {P : ℕ → Prop} {p : ℕ} (h : PointsTo P str 0 p) (hstr : str ≠ 0) :
    p = 0 ↔ ∀ i, ¬ P i := by
  rcases h with ⟨i,hi,rfl⟩ | ⟨hn,rfl⟩
  · exact ⟨fun h0 => absurd h0 (by omega),fun hn => absurd hi (hn i)⟩
  · exact ⟨fun _ => hn,fun _ => rfl⟩

/-- The three searches agree exactly on the characters below 128, and on those that do not occur
in the string. -/
theorem searches_agree_iff (h : CString mem str text) (hstr : str ≠ 0)
    (hlen : str+text.length < 2^32) (hr : text.length < rounds) :
    SearchesAgree mem str text ch rounds ↔ ch.toNat < 128 ∨ ch ∉ text := by
  have hassert : ∀ {α : Type} {func : String} (x : Except Panic α),
      (assert (str ≠ 0) func "str != NULL" >>= fun _ => x) = x := by
    intro α func x
    rw [assert_of hstr,bind_of_ok rfl]
  obtain ⟨p,hp,hfirst⟩ : ∃ p, strchrLoop mem ch str rounds = .ok p ∧
      PointsTo (FirstAt text ch) str 0 p := strchrLoop_runs h hr
  obtain ⟨q,hq,hlast,hnever⟩ : ∃ q, strrchrLoop mem ch str 0 rounds = .ok q ∧
      (ch.toNat < 128 → PointsTo (LastAt text ch) str 0 q) ∧ (128 ≤ ch.toNat → q = 0) :=
    strrchrLoop_runs 0 h hr
  have hcount : strchrsLoop mem ch str 0 rounds =
      .ok (if ch.toNat < 128 then 0+text.count ch else 0) := strchrsLoop_eq h hr (by omega)
  rw [Nat.zero_add] at hcount
  have hno : (∀ i, ¬ LastAt text ch i) ↔ ch ∉ text :=
    ⟨fun hn hm => (exists_lastAt hm).elim hn,fun hn i hi => hn hi.mem⟩
  constructor
  · intro ha
    by_contra hc
    push Not at hc
    obtain ⟨i,hi⟩ := exists_lastAt hc.2
    obtain ⟨q',hq',hpt⟩ := ha.last
    rw [strrchr,hassert,hq,hnever hc.1] at hq'
    obtain rfl := Except.ok.inj hq'
    exact (hpt.eq_zero_iff hstr).mp rfl i hi
  · intro hc
    have hq0 : PointsTo (LastAt text ch) str 0 q := by
      by_cases hlt : ch.toNat < 128
      · exact hlast hlt
      · exact .inr ⟨hno.mpr (hc.resolve_left hlt),hnever (by omega)⟩
    have hcnt : (if ch.toNat < 128 then text.count ch else 0) = text.count ch := by
      split
      · rfl
      · rw [List.count_eq_zero_of_not_mem (hc.resolve_left ‹_›)]
    have hf : (∀ i, ¬ FirstAt text ch i) ↔ ch ∉ text :=
      ⟨fun hn hm => (exists_firstAt hm).elim hn,fun hn i hi => hn hi.mem⟩
    rw [hcnt] at hcount
    refine ⟨⟨p,?_,hfirst⟩,⟨q,?_,hq0⟩,?_,?_,?_,?_⟩
    · rw [strchr,hassert,hp]
    · rw [strrchr,hassert,hq]
    · rw [strchrs,hassert,hcount]
    · rw [strchr,hassert,hp,Except.ok.injEq,hfirst.eq_zero_iff hstr,hf]
    · rw [strrchr,hassert,hq,Except.ok.injEq,hq0.eq_zero_iff hstr,hno]
    · rw [strchrs,hassert,hcount,Except.ok.injEq,List.count_eq_zero]

/-- The string of the single character 200 at address 16. -/
def highString : ByteMemory := write (fun _ => 0) 16 [200]

theorem highString_cString : CString highString 16 [200] := cString_write rfl (by decide)

theorem searches_agree_iff_high : SearchesAgree highString 16 [200] 65 2 ↔
    (65 : BitVec 8).toNat < 128 ∨ (65 : BitVec 8) ∉ [(200 : BitVec 8)] :=
  searches_agree_iff highString_cString (by decide) (by decide) (by decide)

/-- strchr finds the character, and strrchr does not. -/
theorem searches_disagree : strchr highString 16 200 2 = .ok 16 ∧
    strrchr highString 16 200 2 = .ok 0 ∧ ¬ SearchesAgree highString 16 [200] 200 2 := by
  have hlast : strrchr highString 16 200 2 = .ok 0 := by decide
  refine ⟨by decide,hlast,fun h => ?_⟩
  exact h.none.2.1.mp hlast List.mem_cons_self

end Searches
end OsKernel

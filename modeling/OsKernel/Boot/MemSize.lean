import OsKernel.Boot.MemDetectRuns
import Mathlib.Data.Set.Finite.Lattice

/-! For which answers of the BIOS the loader finds the size of the memory. -/
namespace OsKernel
open X86

section Product

lemma append_shiftLeft_or_and {n : ℕ} (a b c d : BitVec n) :
    (a ++ b) <<< n ||| (c ++ d) &&& (0#n ++ BitVec.allOnes n) = b ++ d := by
  ext i hi
  by_cases h : i < n
  · simp [BitVec.getElem_append,h]
  · simp [BitVec.getElem_append,h,show i-n < n by omega]

/-- The two halves of a product, put together. -/
lemma shiftLeft_or_and (edx eax p : Word) : withLow16 edx (p.extractLsb' 16 16) <<< 16 |||
    withLow16 eax (p.setWidth 16) &&& 0x0000ffff = p := by
  have hmask : (0x0000ffff : Word) = 0#16 ++ BitVec.allOnes 16 := by decide
  rw [hmask]
  exact (append_shiftLeft_or_and _ _ _ _).trans (extractLsb'_append_setWidth p)

lemma withLow16_xor_self (w : Word) (v : BitVec 16) : withLow16 (w ^^^ w) v = v.setWidth 32 := by
  rw [BitVec.xor_self]
  apply BitVec.eq_of_toNat_eq
  have h0 : (0#32).extractLsb' 16 16 = 0#16 := by decide
  have hlt := v.isLt
  rw [withLow16,h0,BitVec.toNat_append,BitVec.toNat_setWidth,Nat.mod_eq_of_lt (by omega)]
  simp

/-- The sum of the answer to 0xe801, modulo 2^32. -/
lemma addE801_edx (s : RealMode) (a : E801) : (addE801 (s.answerE801 a)).edx.toNat =
    (2^20+2^10*a.ax.toNat+2^16*a.bx.toNat) % 2^32 := by
  have hax : low16 (s.answerE801 a).eax = a.ax := low16_withLow16 _ _
  have hbx : low16 (s.answerE801 a).ebx = a.bx := low16_withLow16 _ _
  have hedx : (addE801 (s.answerE801 a)).edx =
      a.ax.setWidth 32*(0x400 : BitVec 16).setWidth 32+0x100000+
        ((a.bx.setWidth 32).setWidth 64*(0x10000 : Word).setWidth 64).setWidth 32 := by
    unfold addE801 RealMode.mulCx RealMode.mulEcx
    simp only [hax,hbx,low16_withLow16,shiftLeft_or_and,withLow16_xor_self]
  have hlt := a.ax.isLt
  have hlt' := a.bx.isLt
  have hlow : (a.ax.setWidth 32*(0x400 : BitVec 16).setWidth 32 : Word).toNat =
      2^10*a.ax.toNat := by
    have h : ((0x400 : BitVec 16).setWidth 32 : Word) = 0x400 := by decide
    rw [h]
    bv_omega
  have hhigh : ((a.bx.setWidth 32).setWidth 64*(0x10000 : Word).setWidth 64 : BitVec 64).toNat =
      2^16*a.bx.toNat := by
    have h : ((0x10000 : Word).setWidth 64 : BitVec 64).toNat = 2^16 := by decide
    rw [BitVec.toNat_mul,h,BitVec.toNat_setWidth,BitVec.toNat_setWidth]
    omega
  have hmega : (0x100000 : Word).toNat = 2^20 := by decide
  rw [hedx,BitVec.toNat_add,BitVec.toNat_add,BitVec.toNat_setWidth,hlow,hhigh,hmega]
  omega

end Product

section Detection
variable {b : Bios} {s : RealMode} {a : E801}

/-- The labels that do not ask for 0xe820. -/
lemma int15_other {ax : BitVec 16} (hs : low16 s.eax = ax) (hne : ax ≠ 0xe820) : int15 b s =
    if ax = 0xe801 then
      match b.e801 with
      | some a => ⟨false,b,s.answerE801 a⟩
      | none => ⟨true,b,s⟩
    else
      match if high8 s.eax = 0x88 then b.e88 else b.other ax with
      | some ax => ⟨false,b,s.answerAx ax⟩
      | none => ⟨true,b,s⟩ := by
  subst hs
  exact if_neg fun h => hne h.1

lemma e820FailedTryE801_some (ha : b.e801 = some a) : ∃ s', e820FailedTryE801 b s = .memGetOk s' ∧
    s'.stores = s.stores ∧ (load s'.mem totalMemBytes).toNat =
      (2^20+2^10*a.ax.toNat+2^16*a.bx.toNat) % 2^32 := by
  have hint : int15 b { s with eax := withLow16 s.eax 0xe801 } =
      ⟨false,b,{ s with eax := withLow16 s.eax 0xe801 }.answerE801 a⟩ := by
    rw [int15_other (low16_withLow16 _ _) (by decide),if_pos rfl,ha]
  unfold e820FailedTryE801
  dsimp only
  rw [hint,if_neg Bool.false_ne_true]
  refine ⟨_,rfl,rfl,?_⟩
  dsimp only
  rw [load_store_same,addE801_edx]

lemma int15_stores (h : low16 s.eax ≠ 0xe820) : (int15 b s).regs.stores = s.stores := by
  rw [int15_other rfl h]
  split
  · cases b.e801 with
    | none => rfl
    | some a => rfl
  · cases (if high8 s.eax = 0x88 then b.e88 else b.other (low16 s.eax)) with
    | none => rfl
    | some ax => rfl

/-- The code that asks for the third function stops, whatever the answer is. -/
lemma e801FailedTry88_eq : ∃ s', e801FailedTry88 b s = .errorHlt s' ∧ s'.stores = s.stores := by
  have hne : low16 (withHigh8 s.eax 0x55) ≠ 0xe820 := by
    intro h
    have hhigh := congrArg (BitVec.extractLsb' 8 8) h
    rw [extractLsb'_low16,high8_withHigh8] at hhigh
    exact absurd hhigh (by decide)
  have hstores := int15_stores (b := b) (s := { s with eax := withHigh8 s.eax 0x55 }) hne
  unfold e801FailedTry88
  dsimp only
  split
  · exact ⟨_,rfl,hstores⟩
  · exact ⟨_,rfl,hstores⟩

lemma e820FailedTryE801_none (ha : b.e801 = none) : ∃ s', e820FailedTryE801 b s = .errorHlt s' ∧
    s'.stores = s.stores := by
  have hint : int15 b { s with eax := withLow16 s.eax 0xe801 } =
      ⟨true,b,{ s with eax := withLow16 s.eax 0xe801 }⟩ := by
    rw [int15_other (low16_withLow16 _ _) (by decide),if_pos rfl,ha]
  unfold e820FailedTryE801
  dsimp only
  rw [hint,if_pos rfl]
  exact e801FailedTry88_eq

/-- What the detection does with the answers to 0xe820. -/
theorem loaderStart_stores (h : Loaded s) : ∃ e, loaderStart b s = some e ∧
    e.state.stores = (List.range b.ards.length).map ardsAt ∧
    (∀ d, b.last = some d → ∃ s', e = .memGetOk s' ∧ (b.ards.length ≤ 12 →
      load s'.mem totalMemBytes = (b.ards.map Ards.sum).foldl signedMax 0)) ∧
    (b.last = none → ∀ a, b.e801 = some a → ∃ s', e = .memGetOk s' ∧
      (load s'.mem totalMemBytes).toNat = (2^20+2^10*a.ax.toNat+2^16*a.bx.toNat) % 2^32) ∧
    (b.last = none → b.e801 = none → ∃ s', e = .errorHlt s') := by
  have hfilled : Filled { s with
      ebx := s.ebx ^^^ s.ebx
      edx := smap
      edi := withLow16 s.edi (low16 ardsBuf) } [] :=
    ⟨rfl,(low16_withLow16 _ _).trans (BitVec.add_zero _).symm,h.stores,fun _ => ⟨trivial,h.ardsNr⟩⟩
  obtain ⟨r,hrun,hcarry,hend,he801⟩ := e820GetLoop_runs b hfilled
  rw [List.nil_append] at hend
  unfold loaderStart
  dsimp only
  rw [hrun]
  cases hlast : b.last with
  | some d =>
    rw [hlast] at hcarry
    have hne : b.ards ≠ [] := by
      rw [Bios.ards,hlast]
      simp
    obtain ⟨s',hs,hst⟩ := findMaxMem_ends (s := startMax r.regs) (BitVec.isLt _)
    refine ⟨memGetOk s',?_,hst.trans hend.stores,fun d' _ => ⟨_,rfl,fun hlen => ?_⟩,?_,?_⟩
    · change (if r.carry then _ else _) = _
      rw [hcarry]
      exact congrArg (Option.map memGetOk) hs
    · obtain ⟨hbuf,hnr⟩ := hend.buf hlen
      obtain ⟨s'',hs'',hedx⟩ := findMaxMem_runs (s := startMax r.regs) hbuf hne
        ((low16_withLow16 _ _).trans hnr) (by omega) (show _ ≤ 2^16 by omega)
      obtain rfl := Option.some.inj (hs.symm.trans hs'')
      rw [show (startMax r.regs).edx = 0 from BitVec.xor_self] at hedx
      exact (load_store_same _ _ _).trans hedx
    · intro hn
      cases hn
    · intro hn
      cases hn
  | none =>
    rw [hlast] at hcarry
    have hgo : ∀ e, e = e820FailedTryE801 r.bios r.regs →
        (some r >>= fun r => if r.carry then some (e820FailedTryE801 r.bios r.regs)
          else (findMaxMem (2^16) (startMax r.regs)).map memGetOk) = some e := by
      rintro e rfl
      change (if r.carry then _ else _) = _
      rw [hcarry]
      rfl
    cases ha : b.e801 with
    | some a =>
      obtain ⟨s',hs,hst,hsize⟩ := e820FailedTryE801_some (s := r.regs) (he801.trans ha)
      refine ⟨_,hgo _ hs.symm,hst.trans hend.stores,fun d hd => ?_,fun _ a' ha' => ?_,fun _ hn => ?_⟩
      · cases hd
      · obtain rfl := Option.some.inj ha'
        exact ⟨s',rfl,hsize⟩
      · cases hn
    | none =>
      obtain ⟨s',hs,hst⟩ := e820FailedTryE801_none (s := r.regs) (he801.trans ha)
      refine ⟨_,hgo _ hs.symm,hst.trans hend.stores,fun d hd => ?_,fun _ a' ha' => ?_,
        fun _ _ => ⟨s',rfl⟩⟩
      · cases hd
      · cases ha'

lemma Bios.exists_greatest (h : b.last.isSome) :
    ∃ n, IsGreatest {k | ∃ d ∈ b.ards, d.size = k} n := by
  obtain ⟨d,hd⟩ := Option.isSome_iff_exists.mp h
  have hne : {d | d ∈ b.ards}.Nonempty := ⟨d,by simp [Bios.ards,hd]⟩
  obtain ⟨e,he,hmax⟩ := Set.exists_max_image _ Ards.size b.ards.finite_toSet hne
  refine ⟨e.size,⟨e,he,rfl⟩,?_⟩
  rintro k ⟨d,hd,rfl⟩
  exact hmax d hd

theorem Detects.supported (h : Loaded s) (hd : Detects b s) : Supported b := by
  obtain ⟨e,he,hst,h820,h801,hnone⟩ := loaderStart_stores (b := b) h
  have hcount : b.ards.length ≤ 12 :=
    (inArdsBuf_iff _).mp fun a ha => hd.inside e he a (hst ▸ ha)
  refine ⟨hcount,fun hlast hfit d hmem => ?_,fun hlast a ha => ?_,fun hlast ha => ?_⟩
  · obtain ⟨n,hn⟩ := Bios.exists_greatest hlast
    obtain ⟨s',hs,hsize⟩ := hd.reaches n (.e820 hlast hn)
    obtain ⟨d',hd'⟩ := Option.isSome_iff_exists.mp hlast
    obtain ⟨s'',rfl,hfold⟩ := h820 d' hd'
    obtain rfl := MemDetected.memGetOk.inj (Option.some.inj (hs.symm.trans he))
    have hlt : ((b.ards.map Ards.sum).foldl signedMax 0).toNat < 2^31 :=
      foldl_signedMax_lt (by decide)
    rw [← hfold hcount,hsize hfit] at hlt
    exact Nat.lt_of_le_of_lt (hn.2 ⟨d,hmem,rfl⟩) hlt
  · obtain ⟨s',hs,hsize⟩ := hd.reaches _ (.e801 hlast ha)
    obtain ⟨s'',rfl,hsum⟩ := h801 hlast a ha
    obtain rfl := MemDetected.memGetOk.inj (Option.some.inj (hs.symm.trans he))
    have hfit : SumsFit b := by
      intro hsome
      rw [hlast] at hsome
      cases hsome
    rw [← hsize hfit]
    exact BitVec.isLt _
  · by_contra hne
    obtain ⟨ax,hax⟩ := Option.ne_none_iff_exists'.mp hne
    obtain ⟨s',hs,-⟩ := hd.reaches _ (.e88 hlast ha hax)
    obtain ⟨s'',rfl⟩ := hnone hlast ha
    cases hs.symm.trans he

theorem Supported.detects (h : Loaded s) (hb : Supported b) : Detects b s := by
  obtain ⟨e,he,hst,h820,h801,-⟩ := loaderStart_stores (b := b) h
  refine ⟨fun n hn => ?_,fun e' he' => ?_⟩
  · cases hn with
    | e820 hlast hn =>
      obtain ⟨d,hd⟩ := Option.isSome_iff_exists.mp hlast
      obtain ⟨s',rfl,hfold⟩ := h820 d hd
      have hne : b.ards ≠ [] := by
        rw [Bios.ards,hd]
        simp
      refine ⟨s',he,fun hfit => ?_⟩
      rw [hfold hb.count]
      exact (foldl_signedMax_greatest hne (hb.sums hlast hfit)).unique hn
    | e801 hlast ha =>
      obtain ⟨s',rfl,hsum⟩ := h801 hlast _ ha
      exact ⟨s',he,fun _ => hsum.trans (Nat.mod_eq_of_lt (hb.e801 hlast _ ha))⟩
    | e88 hlast ha hax =>
      rw [hb.e88 hlast ha] at hax
      cases hax
  · obtain rfl := Option.some.inj (he.symm.trans he')
    rw [hst]
    exact (inArdsBuf_iff _).mpr hb.count

/-- The loader stores the reported size for these answers of the BIOS, and for no others. -/
theorem detects_iff (h : Loaded s) : Detects b s ↔ Supported b :=
  ⟨Detects.supported h,Supported.detects h⟩

end Detection

/-- The loader before it runs, with zeros around it. -/
def loadedMode : RealMode := ⟨0,0,0,0,0,0,fun _ => 0,[]⟩

lemma loadedMode_loaded : Loaded loadedMode := ⟨by decide,rfl⟩

/-- A machine whose low memory and whose memory from 1 MB on are reported by 0xe820. -/
def biosOf (lengthLow : Word) : Bios where
  more := [(⟨0,0,0x9fc00,0,1⟩,⟨1,by decide⟩)]
  last := some ⟨0x100000,0,lengthLow,0,1⟩
  e801 := none
  e88 := none
  other := fun _ => none

/-- With 32 MB the size is found. -/
theorem detects_small : Detects (biosOf 0x1f00000) loadedMode := by
  refine (detects_iff loadedMode_loaded).mpr ⟨by decide,fun _ _ => by decide,fun h => ?_,fun h => ?_⟩
  · cases h
  · cases h

/-- With 3 GB the end of the memory is negative for the comparison. -/
theorem detects_fails : ¬ Detects (biosOf 0xbff00000) loadedMode := by
  intro hd
  have hfit : SumsFit (biosOf 0xbff00000) := fun _ => by decide
  have hmem : ⟨0x100000,0,0xbff00000,0,1⟩ ∈ (biosOf 0xbff00000).ards := by simp [Bios.ards,biosOf]
  have hlt := (hd.supported loadedMode_loaded).sums rfl hfit _ hmem
  exact absurd hlt (by decide)

end OsKernel

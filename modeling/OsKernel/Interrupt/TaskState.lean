import OsKernel.Library.X86Narrow
import OsKernel.Library.X86Call

/-! The task state segment: tss_init and update_tss_esp, the descriptors that tss_init adds to the
GDT, and what the processor reads of the segment. -/
namespace OsKernel
open X86

structure GdtDesc where
  limitLowWord : BitVec 16
  baseLowWord : BitVec 16
  baseMidByte : BitVec 8
  attrLowByte : BitVec 8
  limitHighAttrHigh : BitVec 8
  baseHighByte : BitVec 8

def makeGdtDesc (descAddr limit : Word) (attrLow attrHigh : BitVec 8) : GdtDesc where
  limitLowWord := (limit &&& 0x0000ffff).setWidth 16
  baseLowWord := (descAddr &&& 0x0000ffff).setWidth 16
  baseMidByte := ((descAddr &&& 0x00ff0000) >>> 16).setWidth 8
  attrLowByte := attrLow
  limitHighAttrHigh := ((limit &&& 0x000f0000) >>> 16).setWidth 8+attrHigh
  baseHighByte := (descAddr >>> 24).setWidth 8

namespace GdtDesc
variable (d : GdtDesc)

def bytes : List (BitVec 8) :=
  [d.limitLowWord.extractLsb' 0 8,d.limitLowWord.extractLsb' 8 8,d.baseLowWord.extractLsb' 0 8,
    d.baseLowWord.extractLsb' 8 8,d.baseMidByte,d.attrLowByte,d.limitHighAttrHigh,d.baseHighByte]

/-- The assignment of a descriptor to an entry of the GDT. -/
def put (m : Mem) (a : Word) : Mem := fun x => d.bytes[(x-a).toNat]?.getD (m x)

end GdtDesc

/-- What the processor takes from a descriptor: the base, the twenty bits of the limit, the access
byte, and the four flags above the limit. -/
structure Segment where
  base : Word
  rawLimit : BitVec 20
  access : BitVec 8
  flags : BitVec 4
  deriving DecidableEq

namespace Segment

/-- The last offset. The highest flag makes the limit count pages. -/
def limit (s : Segment) : ℕ :=
  if s.flags.getLsbD 3 then s.rawLimit.toNat*4096+4095 else s.rawLimit.toNat

/-- The descriptor at an address. -/
def read (m : Mem) (a : Word) : Segment where
  base := m (a+7) ++ m (a+4) ++ m (a+3) ++ m (a+2)
  rawLimit := (m (a+6)).extractLsb' 0 4 ++ m (a+1) ++ m a
  access := m (a+5)
  flags := (m (a+6)).extractLsb' 4 4

end Segment

section Descriptor
variable {descAddr limit a x : Word} {attrLow attrHigh : BitVec 8} {m : Mem} {d : GdtDesc}

/-- A mask that covers the field does nothing to it. -/
lemma descField_eq {n k : ℕ} {w mask : Word} (h : ∀ i < n, mask.getLsbD (k+i)) :
    ((w &&& mask) >>> k).setWidth n = w.extractLsb' k n := by
  ext i hi
  simp [h i hi]

lemma part_part {n j k l : ℕ} {w : BitVec n} {i : ℕ} (h : i+l ≤ k) :
    (w.extractLsb' j k).extractLsb' i l = w.extractLsb' (j+i) l := by
  ext b hb
  simp [show i+b < k by omega,Nat.add_assoc]

lemma append_limit (w : Word) : w.extractLsb' 16 4 ++ w.extractLsb' 8 8 ++ w.extractLsb' 0 8 =
    w.setWidth 20 := by
  ext i hi
  simp only [BitVec.getElem_append,BitVec.getElem_extractLsb',BitVec.getElem_setWidth]
  split
  · rw [Nat.zero_add]
  · split
    · rw [show 8+(i-8) = i by omega]
    · rw [show 16+(i-8-8) = i by omega]

lemma limitHighAttrHigh_eq (h : attrHigh &&& 0x0f = 0) :
    (makeGdtDesc descAddr limit attrLow attrHigh).limitHighAttrHigh =
      attrHigh.extractLsb' 4 4 ++ limit.extractLsb' 16 4 := by
  have hlow : ∀ i < 4, attrHigh.getLsbD i = false := by
    intro i hi
    have hb := congrArg (fun x : BitVec 8 => x.getLsbD i) h
    have hm : ∀ i < 4, (15#8).getLsbD i = true := by decide
    simpa [hm i hi] using hb
  have hmask : ∀ i < 8, (983040#32).getLsbD (16+i) = decide (i < 4) := by decide
  have hand : ((limit &&& 0x000f0000) >>> 16).setWidth 8 &&& attrHigh = 0 := by
    ext i hi
    by_cases h4 : i < 4
    · simp [← BitVec.getLsbD_eq_getElem,hlow i h4]
    · simp [hmask i hi,h4]
  rw [makeGdtDesc,BitVec.add_eq_or_of_and_eq_zero _ _ hand]
  ext i hi
  change _ = (attrHigh.extractLsb' 4 4 ++ limit.extractLsb' 16 4 : BitVec (4+4))[i]
  rw [BitVec.getElem_append]
  by_cases h4 : i < 4
  · simp [h4,hmask i hi,hi,← BitVec.getLsbD_eq_getElem,hlow i h4]
  · simp [h4,hmask i hi,show 4+(i-4) = i by omega,BitVec.getLsbD_eq_getElem hi]

lemma GdtDesc.put_apply {k : ℕ} {b : BitVec 8} (h : d.bytes[k]? = some b) :
    d.put m a (a+BitVec.ofNat 32 k) = b := by
  have hk : k < 8 := by
    obtain ⟨hk,-⟩ := List.getElem?_eq_some_iff.mp h
    exact hk
  have he : (a+BitVec.ofNat 32 k-a).toNat = k := by bv_omega
  rw [put,he,h]
  rfl

lemma GdtDesc.put_of_not_span (h : ¬Span a 8 x) : d.put m a x = m x := by
  have hn : d.bytes[(x-a).toNat]? = none := List.getElem?_eq_none (Nat.le_of_not_lt h)
  rw [put,hn]
  rfl

/-- The processor finds in a descriptor what make_gdt_desc was given. -/
theorem read_put (ha : attrHigh &&& 0x0f = 0) :
    Segment.read ((makeGdtDesc descAddr limit attrLow attrHigh).put m a) a =
      ⟨descAddr,limit.setWidth 20,attrLow,attrHigh.extractLsb' 4 4⟩ := by
  set d := makeGdtDesc descAddr limit attrLow attrHigh with hd
  have h0 : d.put m a a = d.limitLowWord.extractLsb' 0 8 := by
    simpa using d.put_apply (m := m) (a := a) (k := 0) rfl
  have h1 : d.put m a (a+1) = d.limitLowWord.extractLsb' 8 8 := GdtDesc.put_apply (k := 1) rfl
  have h2 : d.put m a (a+2) = d.baseLowWord.extractLsb' 0 8 := GdtDesc.put_apply (k := 2) rfl
  have h3 : d.put m a (a+3) = d.baseLowWord.extractLsb' 8 8 := GdtDesc.put_apply (k := 3) rfl
  have h4 : d.put m a (a+4) = d.baseMidByte := GdtDesc.put_apply (k := 4) rfl
  have h5 : d.put m a (a+5) = d.attrLowByte := GdtDesc.put_apply (k := 5) rfl
  have h6 : d.put m a (a+6) = d.limitHighAttrHigh := GdtDesc.put_apply (k := 6) rfl
  have h7 : d.put m a (a+7) = d.baseHighByte := GdtDesc.put_apply (k := 7) rfl
  have hll : d.limitLowWord = limit.extractLsb' 0 16 := descField_eq (k := 0) (by decide)
  have hbl : d.baseLowWord = descAddr.extractLsb' 0 16 := descField_eq (k := 0) (by decide)
  have hbm : d.baseMidByte = descAddr.extractLsb' 16 8 := descField_eq (k := 16) (by decide)
  have hbh : d.baseHighByte = descAddr.extractLsb' 24 8 := by
    ext i hi
    simp [hd,makeGdtDesc]
  have hlh : d.limitHighAttrHigh = attrHigh.extractLsb' 4 4 ++ limit.extractLsb' 16 4 :=
    limitHighAttrHigh_eq ha
  rw [Segment.read,h0,h1,h2,h3,h4,h5,h6,h7,hll,hbl,hbm,hbh,hlh,Segment.mk.injEq]
  refine ⟨?_,?_,rfl,?_⟩
  · rw [part_part (by decide),part_part (by decide)]
    exact append_bytes descAddr
  · have hh : (attrHigh.extractLsb' 4 4 ++ limit.extractLsb' 16 4).extractLsb' 0 4 =
        limit.extractLsb' 16 4 :=
      (extractLsb'_append_of_le _ _ (by decide)).trans BitVec.extractLsb'_eq_self
    rw [hh,part_part (by decide),part_part (by decide)]
    exact append_limit limit
  · exact (extractLsb'_append _ _).trans (BitVec.setWidth_eq _)

end Descriptor

def selectorKStack : Word := 0x10

def selectorTss : BitVec 16 := 0x20

/-- The struct tss has 27 members of four bytes. -/
def tssSize : Word := 27*4

def tssAttrLow : BitVec 8 := 0x89
def tssAttrHigh : BitVec 8 := 0x80
def gdtAttrHigh : BitVec 8 := 0xc0
def gdtCodeAttrLowDpl3 : BitVec 8 := 0xf8
def gdtDataAttrLowDpl3 : BitVec 8 := 0xf2

/-- The base of the GDT. -/
def gdtBase : Word := 0xc0000900

/-- The memset of tss_init, and its assignments to ss0 and io_base. -/
def clearTss (tss : Word) (m : Mem) : Mem :=
  let m := fun x => if Span tss 108 x then 0 else m x
  let m := store m (tss+8) selectorKStack
  store m (tss+104) tssSize

/-- The memory after tss_init. -/
def tssInit (tss : Word) (m : Mem) : Mem :=
  let m := clearTss tss m
  let m := (makeGdtDesc tss (tssSize-1) tssAttrLow tssAttrHigh).put m 0xc0000920
  let m := (makeGdtDesc 0 0xfffff gdtCodeAttrLowDpl3 gdtAttrHigh).put m 0xc0000928
  (makeGdtDesc 0 0xfffff gdtDataAttrLowDpl3 gdtAttrHigh).put m 0xc0000930

/-- The member esp0 gets the end of the page of a task. -/
def updateTssEsp (tss pthread : Word) (m : Mem) : Mem := store m (tss+4) (pthread+4096)

/-- The segment that ltr loads for a selector. -/
def ltr (m : Mem) (selector : BitVec 16) : Segment :=
  Segment.read m (gdtBase+(selector &&& 0xfff8).setWidth 32)

/-- The stack for the inner ring, as the processor finds it in the segment. -/
def tssAt (m : Mem) (tss : Word) : Tss := ⟨(load m (tss+8)).setWidth 16,load m (tss+4)⟩

/-- The contents of the segment with a value of esp0, by the offset. -/
def tssImage (esp0 : Word) : Mem :=
  store (store (store (fun _ => 0) 4 esp0) 8 selectorKStack) 104 tssSize

/-- The segment has these contents. -/
def TssHolds (m : Mem) (tss esp0 : Word) : Prop := ∀ x, Span tss 108 x → m x = tssImage esp0 (x-tss)

section Contents
variable {m m' : Mem} {tss esp0 pthread x : Word}

lemma TssHolds.congr (h : TssHolds m tss esp0) (hm : ∀ x, Span tss 108 x → m' x = m x) :
    TssHolds m' tss esp0 := fun x hx => (hm x hx).trans (h x hx)

lemma store_shift (m : Mem) (a d w x : Word) : store m (a+d) w x =
    if (x-a-d).toNat < 4 then w.extractLsb' (8*(x-a-d).toNat) 8 else m x := by
  have hd : x-(a+d) = x-a-d := by bv_omega
  rw [store,hd]

lemma clearTss_holds : TssHolds (clearTss tss m) tss 0 := by
  intro x hx
  have hz : ∀ k : ℕ, (0 : Word).extractLsb' k 8 = 0 := by simp
  rw [clearTss,store_shift,store_shift,if_pos hx]
  simp only [tssImage,store,hz,ite_self]

lemma TssHolds.update (h : TssHolds m tss esp0) :
    TssHolds (updateTssEsp tss pthread m) tss (pthread+4096) := by
  intro x hx
  have hm := h x hx
  rw [updateTssEsp,store_shift]
  simp only [tssImage,store] at hm ⊢
  generalize x-tss = k at hm ⊢
  by_cases h4 : (k-4).toNat < 4
  · rw [if_pos h4,if_neg (by bv_omega),if_neg (by bv_omega),if_pos h4]
  · rw [if_neg h4,hm,if_neg h4,if_neg h4]

lemma TssHolds.load (h : TssHolds m tss esp0) {d : Word} (hd : d.toNat+4 ≤ 108) :
    load m (tss+d) = load (tssImage esp0) d := by
  have hb (k : Word) (hk : k.toNat < 4) : m (tss+d+k) = tssImage esp0 (d+k) := by
    have he : tss+d+k-tss = d+k := by bv_omega
    rw [h _ (by simp only [Span,he]; bv_omega),he]
  have h0 : m (tss+d) = tssImage esp0 d := by simpa using hb 0 (by decide)
  simp only [X86.load,h0,hb 1 (by decide),hb 2 (by decide),hb 3 (by decide)]

lemma words_apart {a b : Word} (h : 4 ≤ (b-a).toNat) (h' : 4 ≤ (a-b).toNat) :
    ∀ x, Span a 4 x → ¬Span b 4 x := by
  intro x hx
  simp only [Span] at hx ⊢
  bv_omega

lemma TssHolds.tssAt (h : TssHolds m tss esp0) : tssAt m tss = ⟨0x10,esp0⟩ := by
  have h4 : X86.load (tssImage esp0) 4 = esp0 := by
    rw [tssImage,load_store_apart (words_apart (by decide) (by decide)),
      load_store_apart (words_apart (by decide) (by decide)),load_store_same]
  have h8 : X86.load (tssImage esp0) 8 = selectorKStack := by
    rw [tssImage,load_store_apart (words_apart (by decide) (by decide)),load_store_same]
  rw [OsKernel.tssAt,h.load (by decide),h.load (by decide),h4,h8]
  rfl

/-- The segment of tss_init lies apart from the descriptors. -/
lemma tssInit_holds (h : ∀ x, Span tss 108 x → ¬Span 0xc0000920 24 x) :
    TssHolds (tssInit tss m) tss 0 := by
  apply clearTss_holds.congr
  intro x hx
  have hx' := h x hx
  simp only [Span] at hx'
  rw [tssInit,GdtDesc.put_of_not_span,GdtDesc.put_of_not_span,GdtDesc.put_of_not_span]
  · simp only [Span]
    bv_omega
  · simp only [Span]
    bv_omega
  · simp only [Span]
    bv_omega

end Contents

section Descriptors
variable {m m' : Mem} {a b : Word} {d : GdtDesc}

lemma read_congr (h : ∀ x, Span a 8 x → m' x = m x) : Segment.read m' a = Segment.read m a := by
  have h0 : m' a = m a := h a (by simp [Span])
  have hk (k : Word) (hk : k.toNat < 8) : m' (a+k) = m (a+k) :=
    h _ (by simp only [Span]; bv_omega)
  simp only [Segment.read,h0,hk 1 (by decide),hk 2 (by decide),hk 3 (by decide),hk 4 (by decide),
    hk 5 (by decide),hk 6 (by decide),hk 7 (by decide)]

lemma read_put_apart (h : 8 ≤ (b-a).toNat) (h' : 8 ≤ (a-b).toNat) :
    Segment.read (d.put m b) a = Segment.read m a := by
  apply read_congr
  intro x hx
  apply GdtDesc.put_of_not_span
  simp only [Span] at hx ⊢
  bv_omega

/-- The segments that the three new selectors name: the task state segment, whose limit counts
pages, and the flat segments of ring 3. -/
theorem tssInit_segments (tss : Word) (m : Mem) :
    Segment.read (tssInit tss m) 0xc0000920 = ⟨tss,107,tssAttrLow,8⟩ ∧
    Segment.read (tssInit tss m) 0xc0000928 = ⟨0,0xfffff,gdtCodeAttrLowDpl3,0xc⟩ ∧
    Segment.read (tssInit tss m) 0xc0000930 = ⟨0,0xfffff,gdtDataAttrLowDpl3,0xc⟩ := by
  refine ⟨?_,?_,?_⟩
  · rw [tssInit,read_put_apart (by decide) (by decide),read_put_apart (by decide) (by decide)]
    exact read_put (by decide)
  · rw [tssInit,read_put_apart (by decide) (by decide)]
    exact read_put (by decide)
  · exact read_put (by decide)

lemma ltr_tssInit (tss : Word) (m : Mem) :
    ltr (tssInit tss m) selectorTss = ⟨tss,107,tssAttrLow,8⟩ := by
  have ha : gdtBase+(selectorTss &&& 0xfff8).setWidth 32 = 0xc0000920 := by decide
  rw [ltr,ha]
  exact (tssInit_segments tss m).1

end Descriptors

/-! The ports that the code of the outer ring may use. -/

/-- The level that the flags give to the code for its ports. -/
def iopl (eflags : Word) : ℕ := (eflags.extractLsb' 12 2).toNat

/-- The I/O map base, which the processor reads at the offset 102. -/
def ioMapBase (m : Mem) (tr : Segment) : BitVec 16 := m (tr.base+103) ++ m (tr.base+102)

/-- The processor lets the code use a port: by its level, or by a zero in the bit map of the task
state segment. It reads the byte with the bit and the next one, within the limit. -/
def PortAllowed (m : Mem) (tr : Segment) (c : Cpu) (port : BitVec 16) : Prop :=
  c.ring.toNat ≤ iopl c.eflags ∨
    ((ioMapBase m tr).toNat+port.toNat/8+1 ≤ tr.limit ∧
      (m (tr.base+BitVec.ofNat 32 ((ioMapBase m tr).toNat+port.toNat/8))).getLsbD
        (port.toNat%8) = false)

/-- The ports that the contents of the segment deny: the bits of esp0, of ss0 and of io_base. -/
def Denied (esp0 : Word) (port : ℕ) : Prop :=
  (32 ≤ port ∧ port < 64 ∧ esp0.getLsbD (port-32)) ∨ port ∈ [0x44,0x342,0x343,0x345,0x346]

section Ports
variable {m : Mem} {tss esp0 : Word} {c : Cpu} {port : BitVec 16} {p k : ℕ}

/-- A bit of a word in the segment, by the number of the port. -/
lemma store_bit (n : ℕ) {a w : Word} (hn : a.toNat = n) (hp : 8*n ≤ p) (hp' : p < 8*n+32)
    (hp₀ : p < 8*108) :
    (store m a w (BitVec.ofNat 32 (p/8))).getLsbD (p%8) = w.getLsbD (p-8*n) := by
  have hk : (BitVec.ofNat 32 (p/8)-a).toNat = p/8-n := by bv_omega
  have hb : 8*(p/8-n)+p%8 = p-8*n := by omega
  rw [store,hk,if_pos (by omega)]
  simp [hb,show p%8 < 8 by omega]

lemma store_bit_apart (n : ℕ) {a w : Word} (hn : a.toNat = n) (hp : p < 8*n ∨ 8*n+32 ≤ p)
    (hs : n < 108) (hp₀ : p < 8*108) :
    (store m a w (BitVec.ofNat 32 (p/8))).getLsbD (p%8) =
      (m (BitVec.ofNat 32 (p/8))).getLsbD (p%8) := by
  rw [store,if_neg]
  bv_omega

lemma tssImage_bit (hp : p < 8*108) :
    (tssImage esp0 (BitVec.ofNat 32 (p/8))).getLsbD (p%8) = true ↔ Denied esp0 p := by
  have hss : ∀ k < 32, selectorKStack.getLsbD k = true ↔ k = 4 := by decide
  have hsize : ∀ k < 32, tssSize.getLsbD k = true ↔ k ∈ [2,3,5,6] := by decide
  simp only [tssImage,Denied,List.mem_cons,List.not_mem_nil,or_false] at hsize ⊢
  by_cases h104 : 832 ≤ p
  · rw [store_bit 104 rfl h104 hp hp,hsize _ (by omega)]
    omega
  · rw [store_bit_apart 104 rfl (.inl (by omega)) (by decide) hp]
    by_cases h8 : 64 ≤ p ∧ p < 96
    · rw [store_bit 8 rfl h8.1 h8.2 hp,hss _ (by omega)]
      omega
    · rw [store_bit_apart 8 rfl (by omega) (by decide) hp]
      by_cases h4 : 32 ≤ p ∧ p < 64
      · rw [store_bit 4 rfl h4.1 h4.2 hp]
        constructor
        · exact fun h => .inl ⟨h4.1,h4.2,h⟩
        · rintro (h | h)
          · exact h.2.2
          · omega
      · rw [store_bit_apart 4 rfl (by omega) (by decide) hp]
        simp
        omega

/-- The I/O map base is zero: io_base stands where the processor does not look. -/
lemma TssHolds.ioMapBase (h : TssHolds m tss esp0) : ioMapBase m ⟨tss,107,tssAttrLow,8⟩ = 0 := by
  have hz (d : Word) (hd : d = 102 ∨ d = 103) : m (tss+d) = 0 := by
    have hs : tss+d-tss = d := by bv_omega
    rw [h _ (by simp only [Span,hs]; obtain rfl | rfl := hd <;> decide),hs,tssImage]
    obtain rfl | rfl := hd <;> simp [store]
  rw [OsKernel.ioMapBase,hz 103 (.inr rfl),hz 102 (.inl rfl)]
  rfl

/-- Every port has its bit behind the beginning of the segment, which is longer than the bit map. -/
lemma TssHolds.portAllowed_iff (h : TssHolds m tss esp0) :
    PortAllowed m ⟨tss,107,tssAttrLow,8⟩ c port ↔ c.ring.toNat ≤ iopl c.eflags ∨
      (m (tss+BitVec.ofNat 32 (port.toNat/8))).getLsbD (port.toNat%8) = false := by
  have hl : (⟨tss,107,tssAttrLow,8⟩ : Segment).limit = 107*4096+4095 := by
    rw [Segment.limit,if_pos (show (8 : BitVec 4).getLsbD 3 = true by decide)]
    rfl
  have hz : (0 : BitVec 16).toNat+port.toNat/8 = port.toNat/8 := Nat.zero_add _
  rw [PortAllowed,h.ioMapBase,hl,hz]
  exact or_congr_right (and_iff_right (by omega))

/-- The ports whose bits lie in the segment. -/
lemma TssHolds.bit_iff (h : TssHolds m tss esp0) (hp : p < 8*108) :
    (m (tss+BitVec.ofNat 32 (p/8))).getLsbD (p%8) = false ↔ ¬Denied esp0 p := by
  have hs : tss+BitVec.ofNat 32 (p/8)-tss = BitVec.ofNat 32 (p/8) := by bv_omega
  rw [h _ (by simp only [Span,hs]; bv_omega),hs,← tssImage_bit hp,Bool.not_eq_true]

end Ports
end OsKernel

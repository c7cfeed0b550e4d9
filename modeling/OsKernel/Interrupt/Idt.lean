import Mathlib.Data.List.Nodup
import OsKernel.Interrupt.Resume

/-! The interrupt descriptor table: how idt_desc_init fills the gates from the
table of stub addresses, and which handler an interrupt reaches. -/
namespace OsKernel
open X86

def idtDescCnt : ℕ := 0x81

def selectorKCode : BitVec 16 := 8

def idtDescAttrDpl0 : BitVec 8 := 0x8e

def idtDescAttrDpl3 : BitVec 8 := 0xee

structure GateDesc where
  funcOffsetLowWord : BitVec 16
  selector : BitVec 16
  dcount : BitVec 8
  attr : BitVec 8
  funcOffsetHighWord : BitVec 16

def makeIdtDesc (attr : BitVec 8) (function : Word) : GateDesc where
  funcOffsetLowWord := (function &&& 0x0000ffff).setWidth 16
  selector := selectorKCode
  dcount := 0
  attr := attr
  funcOffsetHighWord := ((function &&& 0xffff0000) >>> 16).setWidth 16

/-- The address at which the processor enters a gate. -/
def GateDesc.offset (g : GateDesc) : Word := g.funcOffsetHighWord++g.funcOffsetLowWord

@[simp] lemma makeIdtDesc_offset (attr : BitVec 8) (function : Word) :
    (makeIdtDesc attr function).offset = function := by
  have hlow : ∀ i < 16, (0x0000ffff : Word).getLsbD i = true := by decide
  have hhigh : ∀ i < 16, (0xffff0000 : Word).getLsbD (16+i) = true := by decide
  ext i hi
  change ((makeIdtDesc attr function).funcOffsetHighWord++
    (makeIdtDesc attr function).funcOffsetLowWord : BitVec (16+16))[i] = _
  rw [BitVec.getElem_append]
  split
  · rename_i h
    simp only [makeIdtDesc,BitVec.getElem_setWidth,BitVec.getLsbD_and,hlow i h,Bool.and_true]
    exact BitVec.getLsbD_eq_getElem hi
  · have h : i-16 < 16 := by omega
    simp only [makeIdtDesc,BitVec.getElem_setWidth,BitVec.getLsbD_and,BitVec.getLsbD_ushiftRight,
      hhigh (i-16) h,Bool.and_true]
    rw [Nat.add_sub_cancel' (by omega),BitVec.getLsbD_eq_getElem hi]

/-- Where the linker has put the parts of the kernel, and the code it put there.
The words after intr_entry_table belong to whatever follows it in memory. -/
structure KernelImage where
  intrEntryAddr : BitVec 8 → Word
  syscallHandlerAddr : Word
  idtTable : Word
  syscallTable : Word
  beyond : ℕ → Word
  text : Word → Option (List Instr)
  text_intrEntry : ∀ p ∈ vectors, text (intrEntryAddr p.1) = some (intrEntry idtTable p.1 p.2)
  text_syscallHandler : text syscallHandlerAddr = some (syscallHandler syscallTable)

namespace KernelImage

variable (L : KernelImage)

def intrEntryTable : List Word := vectors.map fun p => L.intrEntryAddr p.1

/-- The word a read of intr_entry_table at an index finds. -/
def entryAt (i : ℕ) : Word := L.intrEntryTable[i]?.getD (L.beyond i)

def idtDescInit : List GateDesc :=
  ((List.range idtDescCnt).map fun i => makeIdtDesc idtDescAttrDpl0 (L.entryAt i)).set
    (idtDescCnt-1) (makeIdtDesc idtDescAttrDpl3 L.syscallHandlerAddr)

end KernelImage

/-- The handler table, with the general handler everywhere. -/
def exceptionInit (generalIntrHandler : Word) : List Word :=
  List.replicate idtDescCnt generalIntrHandler

/-- A vector past the end of the table is undefined behaviour. -/
def registerHandler (idtTable : List Word) (vector : BitVec 8) (function : Word) :
    Option (List Word) :=
  if vector.toNat < idtTable.length then some (idtTable.set vector.toNat function) else none

def registerHandlers : List (BitVec 8 × Word) → List Word → Option (List Word)
  | [],t => some t
  | p::ps,t => (registerHandler t p.1 p.2).bind (registerHandlers ps)

/-- The handler registered last for a vector. -/
def latestHandler (generalIntrHandler : Word) (v : BitVec 8) : List (BitVec 8 × Word) → Word
  | [] => generalIntrHandler
  | p::ps => latestHandler (if p.1 = v then p.2 else generalIntrHandler) v ps

lemma registerHandlers_get {ps : List (BitVec 8 × Word)} {t t' : List Word} {g : Word}
    {v : BitVec 8} (h : registerHandlers ps t = some t') (ht : t[v.toNat]? = some g) :
    t'[v.toNat]? = some (latestHandler g v ps) := by
  induction ps generalizing t g with
  | nil =>
    obtain rfl : t = t' := Option.some.inj h
    exact ht
  | cons p ps ih =>
    obtain ⟨u,hu,h⟩ := Option.bind_eq_some_iff.mp h
    obtain ⟨hlt,hu⟩ := Option.ite_none_right_eq_some.mp hu
    obtain rfl : t.set p.1.toNat p.2 = u := Option.some.inj hu
    refine ih h ?_
    by_cases hp : p.1 = v
    · subst hp
      simp [hlt]
    · have hne : p.1.toNat ≠ v.toNat := fun e => hp (BitVec.eq_of_toNat_eq e)
      rw [List.getElem?_set_ne hne,ht,if_neg hp]

lemma registerHandlers_length {ps : List (BitVec 8 × Word)} {t t' : List Word}
    (h : registerHandlers ps t = some t') : t'.length = t.length := by
  induction ps generalizing t with
  | nil =>
    obtain rfl : t = t' := Option.some.inj h
    rfl
  | cons p ps ih =>
    obtain ⟨u,hu,h⟩ := Option.bind_eq_some_iff.mp h
    obtain ⟨-,hu⟩ := Option.ite_none_right_eq_some.mp hu
    obtain rfl : t.set p.1.toNat p.2 = u := Option.some.inj hu
    rw [ih h,List.length_set]

/-- The vectors without 0x60: from there on every entry stands one place early. -/
lemma vectors_get {i : ℕ} (hi : i < 0x80) :
    vectors[i]?.map Prod.fst = some (BitVec.ofNat 8 (if i < 0x60 then i else i+1)) := by
  have h : ∀ i < 0x80,
      vectors[i]?.map Prod.fst = some (BitVec.ofNat 8 (if i < 0x60 then i else i+1)) := by
    decide +kernel
  exact h i hi

lemma vectors_kind_unique {n : BitVec 8} {kind kind' : VectorKind} (h : (n,kind) ∈ vectors)
    (h' : (n,kind') ∈ vectors) : kind = kind' := by
  have hn : (vectors.map Prod.fst).Nodup := by decide +kernel
  exact congrArg Prod.snd (List.inj_on_of_nodup_map hn h h' rfl)

lemma errorCode_lt {n : BitVec 8} (h : (n,.errorCode) ∈ vectors) : n.toNat < 0x60 := by
  have hall : ∀ p ∈ vectors, p.2 = .errorCode → p.1.toNat < 0x60 := by decide +kernel
  exact hall _ h rfl

namespace KernelImage

variable (L : KernelImage)

/-- The gate that idt_desc_init leaves at an index below the last one. -/
lemma idtDescInit_get {i : ℕ} (hi : i < 0x80) :
    L.idtDescInit[i]? = some (makeIdtDesc idtDescAttrDpl0 (L.entryAt i)) := by
  have hne : idtDescCnt-1 ≠ i := by
    simp only [idtDescCnt]
    omega
  have hlt : i < idtDescCnt := by
    simp only [idtDescCnt]
    omega
  simp only [idtDescInit]
  rw [List.getElem?_set_ne hne]
  simp [hlt]

/-- An interrupt through the gate of v runs code that makes one call, through
the slot of v, of the given handler, with v on top of its arguments. -/
def Dispatches (env : Env) (tss : Tss) (err : Option Word) (c : Cpu) (v : BitVec 8)
    (handler : Word) : Prop :=
  ∃ gate code call, L.idtDescInit[v.toNat]? = some gate ∧ L.text gate.offset = some code ∧
    calls env code (deliver tss gate.selector gate.offset err c) = [call] ∧
    call.slot = L.idtTable+4*v.setWidth 32 ∧ call.target = handler ∧
    Holds call.entry.mem (call.entry.esp+4) [v.setWidth 32]

/-- The code behind the gate of v, and the call it makes. -/
lemma gate_call (env : Env) (tss : Tss) (c : Cpu) {v : BitVec 8} (hv : v.toNat < 0x80)
    {err : Option Word} (herr : err.isSome ↔ (v,.errorCode) ∈ vectors) :
    ∃ gate n kind call, (n,kind) ∈ vectors ∧
      n = BitVec.ofNat 8 (if v.toNat < 0x60 then v.toNat else v.toNat+1) ∧
      L.idtDescInit[v.toNat]? = some gate ∧
      L.text gate.offset = some (intrEntry L.idtTable n kind) ∧
      calls env (intrEntry L.idtTable n kind) (deliver tss gate.selector gate.offset err c) =
        [call] ∧
      call.slot = L.idtTable+4*n.setWidth 32 ∧
      Holds call.entry.mem (call.entry.esp+4) [n.setWidth 32] ∧
      ∀ (k : ℕ) (w : Word) (t : List Word), Holds c.mem L.idtTable t → t[k]? = some w →
        t.length = idtDescCnt → call.slot = L.idtTable+BitVec.ofNat 32 (4*k) →
        (∀ x, Span L.idtTable (4*idtDescCnt) x → ¬Span (c.stackTop tss-96) 96 x) →
        call.target = w := by
  obtain ⟨⟨n,kind⟩,hp,hn⟩ := Option.map_eq_some_iff.mp (vectors_get hv)
  have hmem : (n,kind) ∈ vectors := List.mem_of_getElem? hp
  have herr' : err.isSome ↔ kind = .errorCode := by
    rw [herr]
    by_cases hlt : v.toNat < 0x60
    · have he : n = v := by simpa [hlt] using hn
      subst he
      exact ⟨fun h => (vectors_kind_unique h hmem).symm,fun h => h ▸ hmem⟩
    · refine ⟨fun h => absurd (errorCode_lt h) hlt,fun h => ?_⟩
      have hlt' := errorCode_lt (h ▸ hmem)
      simp only [hlt,if_false] at hn
      rw [hn,BitVec.toNat_ofNat] at hlt'
      omega
  have hentry : L.entryAt v.toNat = L.intrEntryAddr n := by
    simp [entryAt,intrEntryTable,hp]
  obtain ⟨reg,dummy,h⟩ := intrEntryPushes_tracks env tss selectorKCode
    (makeIdtDesc idtDescAttrDpl0 (L.entryAt v.toNat)).offset c n kind err herr'
  have hlen := (intrStackOf c (n.setWidth 32) dummy (err.getD 0)).length_saved c
  refine ⟨_,n,kind,_,hmem,hn,L.idtDescInit_get hv,?_,calls_intrEntry env _ L.idtTable n kind,rfl,
    ?_,fun k w t ht hk hlt hs hapart => ?_⟩
  · rw [makeIdtDesc_offset,hentry]
    exact L.text_intrEntry _ hmem
  · obtain ⟨ws,hws⟩ := saved_eq_cons c dummy (err.getD 0)
    have hh := h.holds_push env.next (by simp only; omega) (by omega)
    simp only [hws] at hh
    exact ⟨hh.1,trivial⟩
  · refine h.target ht hk (by simp [hlt,idtDescCnt]) ?_ env hs
    rw [hlt]
    exact hapart

variable {L}

/-- An interrupt reaches the handler registered last for its vector exactly
below 0x60, and a gate is filled from an entry that exists exactly below 0x80. -/
theorem dispatches_iff {ps : List (BitVec 8 × Word)} {idtTable : List Word} {g : Word}
    (hreg : registerHandlers ps (exceptionInit g) = some idtTable) {env : Env} {tss : Tss}
    {c : Cpu} (hmem : Holds c.mem L.idtTable idtTable)
    (hapart : ∀ x, Span L.idtTable (4*idtDescCnt) x → ¬Span (c.stackTop tss-96) 96 x) :
    (∀ (v : BitVec 8) (err : Option Word), v.toNat < 0x80 →
      (err.isSome ↔ (v,.errorCode) ∈ vectors) →
      (L.Dispatches env tss err c v (latestHandler g v ps) ↔ v.toNat < 0x60)) ∧
    ∀ i < idtDescCnt, i < L.intrEntryTable.length ↔ i < 0x80 := by
  refine ⟨fun v err hv herr => ?_,fun i _ => ?_⟩
  · obtain ⟨gate,n,kind,call,-,hn,hgate,htext,hcalls,hslot,hargs,htarget⟩ :=
      L.gate_call env tss c hv herr
    constructor
    · rintro ⟨gate',code',call',hgate',htext',hcalls',hslot',-,hargs'⟩
      obtain rfl : gate = gate' := Option.some.inj (hgate.symm.trans hgate')
      obtain rfl : _ = code' := Option.some.inj (htext.symm.trans htext')
      obtain rfl : call = call' := by simpa using hcalls.symm.trans hcalls'
      have he : n.setWidth 32 = v.setWidth 32 := hargs.1.symm.trans hargs'.1
      by_contra hlt
      simp only [hlt,if_false] at hn
      rw [hn] at he
      bv_omega
    · intro hlt
      have he : n = v := by simpa [hlt] using hn
      subst he
      refine ⟨gate,_,call,hgate,htext,hcalls,hslot,?_,hargs⟩
      have hg : (exceptionInit g)[n.toNat]? = some g := by
        simp only [exceptionInit,idtDescCnt,List.getElem?_replicate]
        exact if_pos (by omega)
      refine htarget n.toNat _ idtTable hmem (registerHandlers_get hreg hg)
        ((registerHandlers_length hreg).trans (by simp [exceptionInit])) ?_ hapart
      rw [hslot]
      bv_omega
  · simp [intrEntryTable,vectors]

end KernelImage

/-- A kernel whose stubs stand 64 bytes apart. -/
def exampleEntryAddr (n : BitVec 8) : Word := 0xc0002000+64*n.setWidth 32

def exampleText (a : Word) : Option (List Instr) :=
  if a = 0xc0001f00 then some (syscallHandler 0xc0010400)
  else (vectors.find? fun p => exampleEntryAddr p.1 = a).map fun p => intrEntry 0xc0010000 p.1 p.2

lemma exampleText_intrEntry (p : BitVec 8 × VectorKind) (hp : p ∈ vectors) :
    exampleText (exampleEntryAddr p.1) = some (intrEntry 0xc0010000 p.1 p.2) := by
  have hne : ∀ p ∈ vectors, exampleEntryAddr p.1 ≠ 0xc0001f00 := by decide +kernel
  have hfind : ∀ p ∈ vectors,
      vectors.find? (fun q => exampleEntryAddr q.1 = exampleEntryAddr p.1) = some p := by
    decide +kernel
  rw [exampleText,if_neg (hne p hp),hfind p hp]
  rfl

def exampleImage : KernelImage where
  intrEntryAddr := exampleEntryAddr
  syscallHandlerAddr := 0xc0001f00
  idtTable := 0xc0010000
  syscallTable := 0xc0010400
  beyond _ := 0
  text := exampleText
  text_intrEntry := exampleText_intrEntry
  text_syscallHandler := rfl

/-- A user program while the timer handler is registered and every other vector has
the general handler. -/
def timerCpu : Cpu := {userCpu with mem := store (fun _ => 0xc0) 0xc0010080 0xc0001800}

def timerTable : List Word := (exceptionInit 0xc0c0c0c0).set 0x20 0xc0001800

lemma timerTable_registered :
    registerHandlers [(0x20,0xc0001800)] (exceptionInit 0xc0c0c0c0) = some timerTable := by
  simp [registerHandlers,registerHandler,exceptionInit,idtDescCnt,timerTable]

lemma timerCpu_holds : Holds timerCpu.mem exampleImage.idtTable timerTable := by
  have h : Holds (store (fun _ => 0xc0) 0xc0010080 0xc0001800) 0xc0010000 timerTable := by
    decide +kernel
  exact h

lemma timerCpu_apart (x : Word) (hx : Span exampleImage.idtTable (4*idtDescCnt) x) :
    ¬Span (timerCpu.stackTop ⟨0x10,0xc0102000⟩-96) 96 x := by
  have ho : timerCpu.Outer := by
    simp [Cpu.Outer,Cpu.ring,timerCpu,userCpu]
  rw [Cpu.stackTop,if_pos ho]
  simp only [Span,exampleImage,idtDescCnt] at hx ⊢
  bv_omega

theorem dispatches_iff_timer :
    exampleImage.Dispatches returnsAtOnce ⟨0x10,0xc0102000⟩ none timerCpu 0x20 0xc0001800 :=
  ((KernelImage.dispatches_iff timerTable_registered timerCpu_holds timerCpu_apart).1 0x20 none
    (by decide) (by decide +kernel)).mpr (by decide)

/-- Interrupt 0x60 runs the stub of 0x61. -/
theorem not_dispatches_0x60 :
    registerHandlers [(0x20,0xc0001800)] (exceptionInit 0xc0c0c0c0) = some timerTable ∧
    Holds timerCpu.mem exampleImage.idtTable timerTable ∧
    ¬exampleImage.Dispatches returnsAtOnce ⟨0x10,0xc0102000⟩ none timerCpu 0x60
      (latestHandler 0xc0c0c0c0 0x60 [(0x20,0xc0001800)]) := by
  refine ⟨timerTable_registered,timerCpu_holds,fun h => ?_⟩
  obtain ⟨gate',code',call',hgate',htext',hcalls',hslot',-,-⟩ := h
  have hnone : (none : Option Word).isSome ↔ (0x60,.errorCode) ∈ vectors := by decide +kernel
  obtain ⟨gate,n,kind,call,-,hn,hgate,htext,hcalls,hslot,-⟩ :=
    exampleImage.gate_call returnsAtOnce ⟨0x10,0xc0102000⟩ timerCpu (by decide) hnone
  obtain rfl : gate = gate' := Option.some.inj (hgate.symm.trans hgate')
  obtain rfl : _ = code' := Option.some.inj (htext.symm.trans htext')
  obtain rfl : call = call' := by simpa using hcalls.symm.trans hcalls'
  rw [hslot,hn] at hslot'
  simp only [exampleImage] at hslot'
  revert hslot'
  decide +kernel

end OsKernel

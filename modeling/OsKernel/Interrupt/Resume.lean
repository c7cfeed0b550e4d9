import OsKernel.Interrupt.Entry

/-! Entry and exit code leaves an interrupted machine as it found it. -/
namespace OsKernel
open X86

/-- The layout of an interrupted machine. -/
def intrStackOf (c : Cpu) (vec dummy err : Word) : IntrStack where
  vecNo := vec
  edi := c.reg .edi
  esi := c.reg .esi
  ebp := c.reg .ebp
  espDummy := dummy
  ebx := c.reg .ebx
  edx := c.reg .edx
  ecx := c.reg .ecx
  eax := c.reg .eax
  gs := (c.seg .gs).setWidth 32
  fs := (c.seg .fs).setWidth 32
  es := (c.seg .es).setWidth 32
  ds := (c.seg .ds).setWidth 32
  errCode := err
  eip := c.eip
  cs := (c.seg .cs).setWidth 32
  eflags := c.eflags
  esp := c.esp
  ss := (c.seg .ss).setWidth 32

section Views

variable (c : Cpu) (reg : Reg → Word) (seg : Seg → BitVec 16) (ws : List Word)

/-- The words of the layout below those that the processor pushed. -/
def IntrStack.pushed (s : IntrStack) : List Word := s.words.take 14

@[simp] lemma saved_intrStackOf (vec dummy err eax : Word) :
    IntrStack.saved ((intrStackOf c vec dummy err).setEax eax) c =
      IntrStack.pushed ((intrStackOf c vec dummy err).setEax eax)++c.savedWords := by
  by_cases ho : c.Outer
  · simp [IntrStack.saved,IntrStack.pushed,IntrStack.words,Cpu.savedWords,ho,intrStackOf,
      IntrStack.setEax]
  · simp [IntrStack.saved,IntrStack.pushed,IntrStack.words,Cpu.savedWords,ho,intrStackOf,
      IntrStack.setEax]

/-- The vector number is the first word, and no other depends on it. -/
lemma saved_eq_cons (dummy err : Word) :
    ∃ ws, ∀ vec, (intrStackOf c vec dummy err).saved c = vec::ws := by
  by_cases ho : c.Outer
  · simp [IntrStack.saved,IntrStack.words,ho,intrStackOf]
  · simp [IntrStack.saved,IntrStack.words,ho,intrStackOf]

/-- The pushes of a stub, over the words of the processor and its error code. -/
lemma intrEntryPushes_view (n : BitVec 8) (kind : VectorKind) (err : Option Word)
    (herr : err.isSome ↔ kind = .errorCode) : ∃ reg' dummy,
    View.run (intrEntryPushes n kind) ⟨reg,seg,err.toList++ws⟩ =
      some ⟨reg',seg,[n.setWidth 32,reg .edi,reg .esi,reg .ebp,dummy,reg .ebx,reg .edx,reg .ecx,
        reg .eax,(seg .gs).setWidth 32,(seg .fs).setWidth 32,(seg .es).setWidth 32,
        (seg .ds).setWidth 32,err.getD 0]++ws⟩ := by
  cases kind with
  | errorCode =>
    obtain ⟨e,rfl⟩ := Option.isSome_iff_exists.mp (herr.mpr rfl)
    exact ⟨_,_,rfl⟩
  | zero =>
    have hn : err = none := by simpa using herr
    subst hn
    exact ⟨_,_,rfl⟩

lemma syscallPushes_view : ∃ reg' dummy,
    View.run syscallPushes ⟨reg,seg,ws⟩ = some ⟨reg',seg,[reg .ebx,reg .ecx,reg .edx,0x80,reg .edi,
      reg .esi,reg .ebp,dummy,reg .ebx,reg .edx,reg .ecx,reg .eax,(seg .gs).setWidth 32,
      (seg .fs).setWidth 32,(seg .es).setWidth 32,(seg .ds).setWidth 32,0]++ws⟩ ∧
    reg' .eax = reg .eax :=
  ⟨_,_,rfl,rfl⟩

lemma syscallReturn_view (s : IntrStack) (a₀ a₁ a₂ : Word) :
    View.run syscallReturn ⟨reg,seg,[a₀,a₁,a₂]++(s.pushed++ws)⟩ =
      some ⟨Function.update reg .esp (reg .esp+12),seg,(s.setEax (reg .eax)).pushed++ws⟩ := by
  simp [syscallReturn,View.run,View.step,IntrStack.pushed,IntrStack.words,IntrStack.setEax]

lemma intrExitPops_view (s : IntrStack) : ∃ reg' seg',
    View.run intrExitPops ⟨reg,seg,s.pushed++ws⟩ = some ⟨reg',seg',ws⟩ ∧
    seg' = Function.update (Function.update (Function.update (Function.update seg .gs
      (s.gs.setWidth 16)) .fs (s.fs.setWidth 16)) .es (s.es.setWidth 16)) .ds (s.ds.setWidth 16) ∧
    reg' .eax = s.eax ∧ reg' .ecx = s.ecx ∧ reg' .edx = s.edx ∧ reg' .ebx = s.ebx ∧
    reg' .ebp = s.ebp ∧ reg' .esi = s.esi ∧ reg' .edi = s.edi :=
  ⟨_,_,rfl,rfl,rfl,rfl,rfl,rfl,rfl,rfl,rfl⟩

end Views

section Exit

variable {d : ℕ} {m : Mem} {k c : Cpu} {reg : Reg → Word} {seg : Seg → BitVec 16}
  {vec dummy err x : Word} {tss : Tss}

/-- The common exit resumes the machine that is laid out on the stack. -/
theorem intrExit_resumes (h : Tracks d (c.stackTop tss) m k
      ⟨reg,seg,IntrStack.saved ((intrStackOf c vec dummy err).setEax x) c⟩)
    (hring : seg .cs &&& 3 = 0) (hss : ¬c.Outer → seg .ss = c.seg .ss) (hd : 19 ≤ d)
    (hs : 4*d ≤ 2^32) (env : Env) :
    run env intrExit k = ⟨Function.update c.reg .eax x,c.seg,c.eip,c.eflags,k.mem⟩ := by
  rw [saved_intrStackOf] at h
  obtain ⟨reg',seg',hv,hseg,hr⟩ := intrExitPops_view reg seg c.savedWords
    ((intrStackOf c vec dummy err).setEax x)
  have hp := h.run env hv (by
    simp only [List.length_append,IntrStack.pushed,IntrStack.words]
    have hlen := c.length_savedWords
    simp [intrExitPops,Instr.words]
    omega) hs
  have hrun : run env intrExit k = iretd (run env intrExitPops k) := run_append _ _ _ _
  have hmem : (run env intrExitPops k).mem = k.mem := rfl
  rw [hrun]
  generalize run env intrExitPops k = e at hp hmem
  have hreg : ∀ r, r ≠ .esp → e.reg r = Function.update c.reg .eax x r := by
    intro r hne
    rw [hp.reg]
    obtain ⟨h0,h1,h2,h3,h4,h5,h6⟩ := hr
    cases r <;> first | assumption | exact absurd rfl hne
  have hseg' : ∀ s, s ≠ .cs → s ≠ .ss → e.seg s = c.seg s := by
    intro s hcs hss
    rw [hp.seg,hseg]
    cases s <;> first | contradiction | simp [intrStackOf,IntrStack.setEax]
  have hecs : e.seg .cs = seg .cs := by simp [hp.seg,hseg]
  have hess : e.seg .ss = seg .ss := by simp [hp.seg,hseg]
  have hstack : Holds e.mem e.esp c.savedWords := by
    have he : e.esp = reg' .esp := congrFun hp.reg .esp
    rw [he]
    exact hp.stack
  by_cases ho : c.Outer
  · simp only [Cpu.savedWords,if_pos ho] at hstack
    rw [iretd_outer hstack (by rw [Cpu.ring,hecs,hring]) (by simpa [Cpu.Outer,Cpu.ring] using ho),hmem]
    congr 1
    · funext r
      by_cases hne : r = .esp
      · subst hne
        simp [Cpu.esp]
      · simp [hne,hreg]
    · funext s
      by_cases hcs : s = .cs
      · simp [hcs]
      · by_cases hss : s = .ss
        · simp [hss]
        · simp [hcs,hss,hseg']
  · have hi : c.ring = 0 := not_not.mp ho
    have htop := hp.base
    simp only [View.base,Cpu.stackTop,if_neg ho] at htop
    simp only [Cpu.savedWords,if_neg ho] at hstack htop
    rw [iretd_inner hstack (by simpa [Cpu.ring] using hi),hmem]
    congr 1
    · funext r
      by_cases hne : r = .esp
      · subst hne
        have he : e.reg .esp = reg' .esp := congrFun hp.reg .esp
        simpa [he,Cpu.esp] using htop
      · simp [hne,hreg]
    · funext s
      by_cases hcs : s = .cs
      · simp [hcs]
      · by_cases hs' : s = .ss
        · subst hs'
          simp [hess,hss ho]
        · simp [hcs,hs',hseg']

end Exit

section Interrupted

variable (env : Env) (tss : Tss) (sel : BitVec 16) (off : Word) (c : Cpu)

lemma intrEntryPushes_tracks (n : BitVec 8) (kind : VectorKind) (err : Option Word)
    (herr : err.isSome ↔ kind = .errorCode) : ∃ reg dummy, Tracks 24 (c.stackTop tss) c.mem
      (run env (intrEntryPushes n kind) (deliver tss sel off err c))
      ⟨reg,c.handlerSeg tss sel,(intrStackOf c (n.setWidth 32) dummy (err.getD 0)).saved c⟩ := by
  obtain ⟨reg,dummy,hv⟩ := intrEntryPushes_view (c.handlerReg tss err) (c.handlerSeg tss sel)
    c.savedWords n kind err herr
  have h := (deliver_tracks tss sel off err c (d := 24) (by omega) (by omega)).run env hv (by
    have hlen := c.length_savedWords
    have herr : err.toList.length ≤ 1 := by cases err <;> simp
    have hkind : kind.instr.words ≤ 1 := by cases kind <;> decide
    simp only [intrEntryPushes,pushContext,List.length_append,List.cons_append,List.map_cons,
      List.sum_cons,List.nil_append,List.map_nil,List.sum_nil]
    simp only [Instr.words] at hkind ⊢
    omega) (by omega)
  refine ⟨reg,dummy,?_⟩
  have hs := saved_intrStackOf c (n.setWidth 32) dummy (err.getD 0) (c.reg .eax)
  change (intrStackOf c (n.setWidth 32) dummy (err.getD 0)).saved c = _ at hs
  rw [hs]
  simpa [IntrStack.pushed,IntrStack.words,IntrStack.setEax,intrStackOf] using h

/-- The three arguments stand below the layout. -/
lemma syscallPushes_tracks : ∃ reg dummy, reg .eax = c.reg .eax ∧
    Tracks 24 (c.stackTop tss) c.mem (run env syscallPushes (deliver tss sel off none c))
      ⟨reg,c.handlerSeg tss sel,
        [c.reg .ebx,c.reg .ecx,c.reg .edx]++(intrStackOf c 0x80 dummy 0).saved c⟩ := by
  obtain ⟨reg,dummy,hv,heax⟩ := syscallPushes_view (c.handlerReg tss none) (c.handlerSeg tss sel)
    c.savedWords
  have h := (deliver_tracks tss sel off none c (d := 24) (by omega) (by omega)).run env hv (by
    have hlen := c.length_savedWords
    simp [syscallPushes,pushContext,Instr.words]
    omega) (by omega)
  refine ⟨reg,dummy,heax.trans (by simp),?_⟩
  have hs := saved_intrStackOf c 0x80 dummy 0 (c.reg .eax)
  change (intrStackOf c 0x80 dummy 0).saved c = _ at hs
  rw [hs]
  simpa [IntrStack.pushed,IntrStack.words,IntrStack.setEax,intrStackOf] using h

lemma calls_intrEntry (idtTable : Word) (n : BitVec 8) (kind : VectorKind) :
    calls env (intrEntry idtTable n kind) c =
      [callAt env ⟨idtTable+4*n.setWidth 32,none⟩ (run env (intrEntryPushes n kind) c)] := by
  apply calls_single
  · cases kind <;> simp [intrEntryPushes,pushContext,VectorKind.instr]
  · simp [intrExit,intrExitPops]

lemma calls_syscallHandler (syscallTable : Word) : calls env (syscallHandler syscallTable) c =
    [callAt env ⟨syscallTable,some .eax⟩ (run env syscallPushes c)] := by
  apply calls_single
  · simp [syscallPushes,pushContext]
  · simp [syscallReturn,intrExit,intrExitPops]

variable {env tss sel off c}

/-- A stub, its handler and the exit. -/
theorem intrEntry_resumes (hsel : sel &&& 3 = 0) (idtTable : Word) {n : BitVec 8}
    {kind : VectorKind} {err : Option Word} (herr : err.isSome ↔ kind = .errorCode)
    (hcallee : ∀ t e, Cdecl 1 72 e (env.callee t e)) : ∃ call dummy,
    calls env (intrEntry idtTable n kind) (deliver tss sel off err c) = [call] ∧
    Holds call.entry.mem (call.entry.esp+4)
      ((intrStackOf c (n.setWidth 32) dummy (err.getD 0)).saved c) ∧
    run env (intrEntry idtTable n kind) (deliver tss sel off err c) =
      {c with mem := (env.callee call.target call.entry).mem} := by
  obtain ⟨reg,dummy,h⟩ := intrEntryPushes_tracks env tss sel off c n kind err herr
  set k := run env (intrEntryPushes n kind) (deliver tss sel off err c) with hk
  have hlen := (intrStackOf c (n.setWidth 32) dummy (err.getD 0)).length_saved c
  refine ⟨_,dummy,calls_intrEntry env _ idtTable n kind,?_,?_⟩
  · exact h.holds_push _ (by simp only; omega) (by omega)
  · obtain ⟨ws,hws⟩ := saved_eq_cons c dummy (err.getD 0)
    rw [hws,List.length_cons] at hlen
    rw [intrEntry,run_single,← hk]
    set call := callAt env ⟨idtTable+4*n.setWidth 32,none⟩ k
    have hc := hcallee call.target call.entry
    obtain ⟨as',has,-,ht⟩ := h.callee
      (show _ = [n.setWidth 32]++ws from hws _) (hc.mono (by omega)) (by simp only [List.length_singleton]; omega)
    obtain ⟨a,rfl⟩ := List.length_eq_one_iff.mp has
    have hseg (s : Seg) : call.entry.seg s = c.handlerSeg tss sel s := congrFun h.seg s
    have hx : [a]++ws = ((intrStackOf c a dummy (err.getD 0)).setEax (c.reg .eax)).saved c :=
      (hws a).symm
    rw [hx] at ht
    rw [intrExit_resumes ht (by rw [hc.cs,hseg,Cpu.handlerSeg_cs,hsel])
      (fun ho => by rw [hc.ss,hseg,Cpu.handlerSeg_ss ho]) (by omega) (by omega) env,
      Function.update_eq_self]

/-- A system call, its function and the exit. -/
theorem syscallHandler_resumes (hsel : sel &&& 3 = 0) (syscallTable : Word)
    (hcallee : ∀ t e, Cdecl 3 76 e (env.callee t e)) : ∃ call dummy,
    calls env (syscallHandler syscallTable) (deliver tss sel off none c) = [call] ∧
    Holds call.entry.mem (call.entry.esp+4)
      ([c.reg .ebx,c.reg .ecx,c.reg .edx]++(intrStackOf c 0x80 dummy 0).saved c) ∧
    ∃ m, run env (syscallHandler syscallTable) (deliver tss sel off none c) =
      {c with
        reg := Function.update c.reg .eax ((env.callee call.target call.entry).reg .eax)
        mem := m} := by
  obtain ⟨reg,dummy,heax,h⟩ := syscallPushes_tracks env tss sel off c
  set k := run env syscallPushes (deliver tss sel off none c) with hk
  have hlen := (intrStackOf c 0x80 dummy 0).length_saved c
  refine ⟨_,dummy,calls_syscallHandler env _ syscallTable,?_,?_⟩
  · exact h.holds_push _ (by simp only [List.length_append,List.length_cons,List.length_nil]; omega)
      (by omega)
  · rw [syscallHandler,run_single,← hk]
    set call := callAt env ⟨syscallTable,some .eax⟩ k
    have hc := hcallee call.target call.entry
    obtain ⟨as',has,-,ht⟩ := h.callee
      (show _ = [c.reg .ebx,c.reg .ecx,c.reg .edx]++(intrStackOf c 0x80 dummy 0).saved c from rfl)
      (hc.mono (by omega))
      (by simp only [List.length_cons,List.length_nil]; omega)
    obtain ⟨a₀,a₁,a₂,rfl⟩ := List.length_eq_three.mp has
    have hseg (s : Seg) : call.entry.seg s = c.handlerSeg tss sel s := congrFun h.seg s
    have hx := saved_intrStackOf c 0x80 dummy 0 (c.reg .eax)
    change (intrStackOf c 0x80 dummy 0).saved c = _ at hx
    rw [hx] at ht
    have hp := ht.run env (syscallReturn_view _ _ c.savedWords _ a₀ a₁ a₂)
      (by
        have hw := c.length_savedWords
        simp [IntrStack.pushed,IntrStack.words,syscallReturn,Instr.words]
        omega) (by omega)
    rw [run_append]
    rw [IntrStack.setEax_setEax,← saved_intrStackOf] at hp
    exact ⟨_,intrExit_resumes hp (by rw [hc.cs,hseg,Cpu.handlerSeg_cs,hsel])
      (fun ho => by rw [hc.ss,hseg,Cpu.handlerSeg_ss ho]) (by omega) (by omega) env⟩

end Interrupted

/-- Every stub and the system call entry lay the interrupted machine out as
struct intr_stack, call one function, and resume the machine; a system call
changes eax to the result. -/
theorem interrupted_resumes {env : Env} {tss : Tss} {sel : BitVec 16} {off : Word}
    (hsel : sel &&& 3 = 0) (c : Cpu) :
    (∀ (idtTable : Word) (n : BitVec 8) (kind : VectorKind) (err : Option Word),
      (n,kind) ∈ vectors → (err.isSome ↔ kind = .errorCode) →
      (∀ t e, Cdecl 1 72 e (env.callee t e)) → ∃ call dummy,
      calls env (intrEntry idtTable n kind) (deliver tss sel off err c) = [call] ∧
      Holds call.entry.mem (call.entry.esp+4)
        ((intrStackOf c (n.setWidth 32) dummy (err.getD 0)).saved c) ∧
      run env (intrEntry idtTable n kind) (deliver tss sel off err c) =
        {c with mem := (env.callee call.target call.entry).mem}) ∧
    (∀ syscallTable : Word, (∀ t e, Cdecl 3 76 e (env.callee t e)) → ∃ call dummy,
      calls env (syscallHandler syscallTable) (deliver tss sel off none c) = [call] ∧
      Holds call.entry.mem (call.entry.esp+4)
        ([c.reg .ebx,c.reg .ecx,c.reg .edx]++(intrStackOf c 0x80 dummy 0).saved c) ∧
      ∃ m, run env (syscallHandler syscallTable) (deliver tss sel off none c) =
        {c with
          reg := Function.update c.reg .eax ((env.callee call.target call.entry).reg .eax)
          mem := m}) :=
  ⟨fun idtTable _ _ _ _ herr hcallee => intrEntry_resumes hsel idtTable herr hcallee,
    fun syscallTable hcallee => syscallHandler_resumes hsel syscallTable hcallee⟩

/-- Every function returns at once. -/
def returnsAtOnce : Env where
  callee _ c := c.addEsp 4
  next := 0
  addFlags eflags _ _ := eflags

lemma returnsAtOnce_cdecl (args above : ℕ) (t : Word) (c : Cpu) :
    Cdecl args above c (returnsAtOnce.callee t c) := by
  refine ⟨by simp [returnsAtOnce,Cpu.addEsp,Cpu.esp],fun r hr => ?_,rfl,rfl,fun _ _ => rfl⟩
  have hne : r ≠ .esp := by
    rintro rfl
    simp at hr
  simp [returnsAtOnce,Cpu.addEsp,hne]

/-- A user program with its registers and segments. -/
def userCpu : Cpu where
  reg r := match r with
    | .esp => 0xbffffff0
    | _ => 1
  seg s := match s with
    | .cs => 0x2b
    | .gs => 0
    | _ => 0x33
  eip := 0x8048000
  eflags := 0x202
  mem _ := 0

theorem interrupted_resumes_userCpu :
    (∃ m, run returnsAtOnce (intrEntry 0xc0010000 0x20 .zero)
      (deliver ⟨0x10,0xc0102000⟩ 8 0xc0001600 none userCpu) = {userCpu with mem := m}) ∧
    ∃ eax m, run returnsAtOnce (syscallHandler 0xc0010400)
      (deliver ⟨0x10,0xc0102000⟩ 8 0xc0001600 none userCpu) =
        {userCpu with reg := Function.update userCpu.reg .eax eax, mem := m} := by
  obtain ⟨hstub,hcall⟩ := @interrupted_resumes returnsAtOnce ⟨0x10,0xc0102000⟩ 8 0xc0001600
    (by decide) userCpu
  obtain ⟨call,dummy,-,-,h⟩ := hstub 0xc0010000 0x20 .zero none (by decide) (by decide)
    (returnsAtOnce_cdecl 1 72)
  obtain ⟨call',dummy',-,-,m,h'⟩ := hcall 0xc0010400 (returnsAtOnce_cdecl 3 76)
  exact ⟨⟨_,h⟩,_,m,h'⟩

end OsKernel

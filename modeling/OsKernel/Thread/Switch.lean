import OsKernel.Library.X86Call

/-! The stack switch: switch_to, the stack that thread_create prepares, and what
a thread finds when it runs again. -/
namespace OsKernel
open X86

/-- The registers go onto the stack, and eax is cur. -/
def switchPushes : List Instr :=
  [.pushReg .esi,.pushReg .edi,.pushReg .ebx,.pushReg .ebp,.load .eax .esp 20]

def switchPops : List Instr := [.popReg .ebp,.popReg .ebx,.popReg .edi,.popReg .esi]

def switchTo : List Instr :=
  switchPushes++([.store .eax 0 .esp,.load .eax .esp 24,.load .esp .eax 0]++(switchPops++[.ret]))

structure ThreadStack where
  ebp : Word
  ebx : Word
  edi : Word
  esi : Word
  eip : Word
  unusedRetaddr : Word
  function : Word
  funcArg : Word

def ThreadStack.words (s : ThreadStack) : List Word :=
  [s.ebp,s.ebx,s.edi,s.esi,s.eip,s.unusedRetaddr,s.function,s.funcArg]

def sizeofIntrStack : Word := 76

def sizeofThreadStack : Word := 32

/-- The stores of thread_create to the thread stack; the return address stays as it is. -/
def fillThreadStack (kernelThread function funcArg kthreadStack : Word) (m : Mem) : Mem :=
  let m := store (store (store (store m (kthreadStack+12) 0) (kthreadStack+8) 0)
    (kthreadStack+4) 0) kthreadStack 0
  let m := store m (kthreadStack+16) kernelThread
  let m := store m (kthreadStack+24) function
  store m (kthreadStack+28) funcArg

/-- The memory after thread_create. The field self_kstack is the first of the task, and
the subtractions count words. -/
def threadCreate (kernelThread pthread function funcArg : Word) (m : Mem) : Mem :=
  let m := store m pthread (load m pthread-4*sizeofIntrStack)
  let m := store m pthread (load m pthread-4*sizeofThreadStack)
  fillThreadStack kernelThread function funcArg (load m pthread) m

/-- Where thread_create puts the thread stack. -/
def kthreadStackOf (m : Mem) (pthread : Word) : Word :=
  load m pthread-4*sizeofIntrStack-4*sizeofThreadStack

section Create

variable (kernelThread pthread function funcArg : Word) {m : Mem} {x : Word}

lemma fillThreadStack_holds (s : Word) : ∃ retaddr,
    Holds (fillThreadStack kernelThread function funcArg s m) s
      (ThreadStack.words ⟨0,0,0,0,kernelThread,retaddr,function,funcArg⟩) := by
  obtain ⟨ws,hl,h⟩ := exists_holds m 8 s
  match ws,hl with
  | [w₀,w₁,w₂,w₃,w₄,w₅,w₆,w₇],_ =>
    have h3 := h.set (k := 3) 0 (by simp) (by simp)
    have h2 := h3.set (k := 2) 0 (by simp) (by simp)
    have h1 := h2.set (k := 1) 0 (by simp) (by simp)
    have h0 := h1.set (k := 0) 0 (by simp) (by simp)
    have h4 := h0.set (k := 4) kernelThread (by simp) (by simp)
    have h6 := h4.set (k := 6) function (by simp) (by simp)
    have h7 := h6.set (k := 7) funcArg (by simp) (by simp)
    exact ⟨w₅,by simpa [ThreadStack.words,fillThreadStack] using h7⟩

lemma fillThreadStack_frame {s : Word} (hx : ¬Span s 32 x) :
    fillThreadStack kernelThread function funcArg s m x = m x := by
  have hout (d : Word) (hd : d.toNat+4 ≤ 32) : ¬Span (s+d) 4 x := by
    simp only [Span] at hx ⊢
    bv_omega
  have h0 : ¬Span s 4 x := by
    simp only [Span] at hx ⊢
    omega
  simp only [fillThreadStack]
  rw [store_of_not_span (hout 28 (by decide)),store_of_not_span (hout 24 (by decide)),
    store_of_not_span (hout 16 (by decide)),store_of_not_span h0,
    store_of_not_span (hout 4 (by decide)),store_of_not_span (hout 8 (by decide)),
    store_of_not_span (hout 12 (by decide))]

lemma threadCreate_eq : threadCreate kernelThread pthread function funcArg m =
    fillThreadStack kernelThread function funcArg (kthreadStackOf m pthread)
      (store (store m pthread (load m pthread-4*sizeofIntrStack)) pthread
        (kthreadStackOf m pthread)) := by
  simp only [threadCreate,load_store_same]
  rfl

/-- The prepared stack starts in kernel_thread, with the function and its argument as
arguments. -/
theorem threadCreate_holds (hapart : ∀ x, Span pthread 4 x → ¬Span (kthreadStackOf m pthread) 32 x) :
    ∃ retaddr, load (threadCreate kernelThread pthread function funcArg m) pthread =
        kthreadStackOf m pthread ∧
      Holds (threadCreate kernelThread pthread function funcArg m) (kthreadStackOf m pthread)
        (ThreadStack.words ⟨0,0,0,0,kernelThread,retaddr,function,funcArg⟩) := by
  rw [threadCreate_eq]
  obtain ⟨retaddr,h⟩ := fillThreadStack_holds kernelThread function funcArg (kthreadStackOf m pthread)
  refine ⟨retaddr,?_,h⟩
  rw [load_congr fun x hx => fillThreadStack_frame _ _ _ (hapart x hx)]
  exact load_store_same _ _ _

/-- Other bytes keep their values. -/
theorem threadCreate_frame (hp : ¬Span pthread 4 x) (hs : ¬Span (kthreadStackOf m pthread) 32 x) :
    threadCreate kernelThread pthread function funcArg m x = m x := by
  rw [threadCreate_eq,fillThreadStack_frame _ _ _ hs,store_of_not_span hp,store_of_not_span hp]

end Create

section Switch

variable {env : Env} {c : Cpu} {retaddr cur next : Word}

lemma switchPushes_view (retaddr cur next : Word) (reg : Reg → Word) (seg : Seg → BitVec 16) :
    ∃ reg', View.run switchPushes ⟨reg,seg,[retaddr,cur,next]⟩ = some ⟨reg',seg,
      [reg .ebp,reg .ebx,reg .edi,reg .esi,retaddr,cur,next]⟩ ∧
    reg' .eax = cur ∧ reg' .esp = reg .esp-16 := by
  refine ⟨_,rfl,rfl,?_⟩
  simp only [View.push,ne_eq,reduceCtorEq,not_false_eq_true,Function.update_of_ne,
    Function.update_self]
  bv_omega

lemma switchPops_view (reg : Reg → Word) (seg : Seg → BitVec 16) (ebp ebx edi esi : Word)
    (ws : List Word) : ∃ reg',
    View.run switchPops ⟨reg,seg,[ebp,ebx,edi,esi]++ws⟩ = some ⟨reg',seg,ws⟩ ∧
    reg' .ebp = ebp ∧ reg' .ebx = ebx ∧ reg' .edi = edi ∧ reg' .esi = esi ∧
    reg' .esp = reg .esp+16 := by
  refine ⟨_,rfl,rfl,rfl,rfl,rfl,?_⟩
  simp only [ne_eq,reduceCtorEq,not_false_eq_true,Function.update_of_ne,Function.update_self]
  bv_omega

/-- The first half of switch_to saves the registers on the stack of cur and the stack
pointer in its task. -/
theorem switchTo_saves (env : Env) (h : Holds c.mem c.esp [retaddr,cur,next])
    (hcur : ∀ x, Span cur 4 x → ¬Span (c.esp-16) 28 x) :
    ∃ k : Cpu, run env switchTo c = run env (switchPops++[.ret]) (k.setReg .esp (load k.mem next)) ∧
      load k.mem cur = c.esp-16 ∧
      Holds k.mem (c.esp-16)
        [c.reg .ebp,c.reg .ebx,c.reg .edi,c.reg .esi,retaddr,cur,next] ∧
      ∀ x, ¬Span (c.esp-16) 28 x → ¬Span cur 4 x → k.mem x = c.mem x := by
  obtain ⟨reg,hv,heax,hesp⟩ := switchPushes_view retaddr cur next c.reg c.seg
  have h1 := (Tracks.start h 7).run env hv (by simp [switchPushes,Instr.words]) (by decide)
  set k := run env switchPushes c with hk
  have hkeax : k.reg .eax = cur := (congrFun h1.reg .eax).trans heax
  have hkesp : k.esp = c.esp-16 := (congrFun h1.reg .esp).trans hesp
  have hstack := h1.stack
  simp only [hesp] at hstack
  -- the task of cur is away from the words on its stack
  have hsave : Holds (store k.mem cur k.esp) (c.esp-16)
      [c.reg .ebp,c.reg .ebx,c.reg .edi,c.reg .esi,retaddr,cur,next] :=
    hstack.congr (by simp) fun x hx => store_of_not_span fun hc => hcur x hc hx
  have hnext : load (store k.mem cur k.esp) (k.esp+24) = next := by
    have hget := hsave.get (k := 6) (w := next) rfl
    rwa [← hkesp] at hget
  set k' : Cpu := {k with mem := store k.mem cur k.esp} with hk'
  have hstore : exec env (.store .eax 0 .esp) k = k' := by
    simp [exec,hkeax,hk',Cpu.esp]
  have hload : exec env (.load .eax .esp 24) k' = k'.setReg .eax next := by
    rw [← hnext]
    rfl
  have hsp : exec env (.load .esp .eax 0) (k'.setReg .eax next) =
      (k'.setReg .eax next).setReg .esp (load k'.mem next) := by
    simp [exec,Cpu.setReg]
  refine ⟨k'.setReg .eax next,?_,?_,hsave,fun x hx hc => ?_⟩
  · rw [switchTo,run_append,run_append,← hk]
    simp only [run,List.foldl_cons,List.foldl_nil,hstore,hload,hsp]
    rfl
  · rw [← hkesp]
    exact load_store_same _ _ _
  · refine (store_of_not_span hc).trans (h1.frame x ?_)
    intro hs
    apply hx
    simp only [Span,Cpu.esp] at hs ⊢
    simp only [List.length_cons,List.length_nil] at hs
    bv_omega

/-- The second half takes the registers from the stack of next. -/
theorem switchPops_resumes (env : Env) {k : Cpu} {ebp ebx edi esi eip : Word}
    (h : Holds k.mem k.esp [ebp,ebx,edi,esi,eip]) :
    let c' := run env (switchPops++[.ret]) k
    c'.mem = k.mem ∧ c'.esp = k.esp+20 ∧ c'.reg .ebp = ebp ∧ c'.reg .ebx = ebx ∧
      c'.reg .esi = esi ∧ c'.reg .edi = edi ∧ c'.eip = eip := by
  obtain ⟨reg,hv,hebp,hebx,hedi,hesi,hesp⟩ := switchPops_view k.reg k.seg ebp ebx edi esi [eip]
  have h1 := (Tracks.start h 5).run env hv (by simp [switchPops,Instr.words]) (by decide)
  have hmem : (run env switchPops k).mem = k.mem := rfl
  have hrun : run env (switchPops++[.ret]) k =
      {(run env switchPops k).addEsp 4 with eip := (run env switchPops k).top} := run_append _ _ _ _
  rw [hrun]
  generalize run env switchPops k = e at h1 hmem
  have he : e.esp = k.esp+16 := (congrFun h1.reg .esp).trans hesp
  have hr (r : Reg) (hne : r ≠ .esp) : (e.addEsp 4).reg r = reg r := by
    simp [Cpu.addEsp,hne,h1.reg]
  refine ⟨hmem,?_,(hr _ (by decide)).trans hebp,(hr _ (by decide)).trans hebx,
    (hr _ (by decide)).trans hesi,(hr _ (by decide)).trans hedi,(h1.pop rfl).1⟩
  have he' : (e.addEsp 4).esp = e.esp+4 := by simp [Cpu.addEsp,Cpu.esp]
  exact he'.trans (by rw [he]; bv_omega)

end Switch

end OsKernel

import OsKernel.Print.Char

/-! Printing a text: cursor and text memory are those after its characters, and other memory has
only changed in a given area of scratch bytes. -/
namespace OsKernel
open X86

/-- The text memory after the characters of a text. -/
def paintAll (m : Mem) (bx : BitVec 16) : List (BitVec 8) → Mem
  | [] => m
  | c::cs => paintAll (paint m bx c) (advance bx c) cs

/-- Every character of the text finds its cell. -/
def FitsAll (bx : BitVec 16) : List (BitVec 8) → Prop
  | [] => True
  | c::cs => Fits bx c ∧ FitsAll (advance bx c) cs

/-- The addresses of the segment in gs. -/
def InVideo (x : Word) : Prop := Span videoBase (videoLimit+1) x

section Congruence
variable {m m' : Mem} {bx : BitVec 16} {c : BitVec 8} {cs ds : List (BitVec 8)} {x : Word}

theorem scroll_congr (h : ∀ x, InVideo x → m' x = m x) (hx : InVideo x) :
    scroll m' x = scroll m x := by
  have hl : videoLimit = 0x7fff := rfl
  unfold scroll blanks shiftUp
  simp only [InVideo,Span,hl] at h hx
  split_ifs with h₁ h₂ h₃
  · rfl
  · rfl
  · refine h _ ?_
    generalize videoBase = a at h₃ hx ⊢
    bv_omega
  · exact h _ hx

theorem feedMem_congr (h : ∀ x, InVideo x → m' x = m x) (hx : InVideo x) :
    feedMem m' bx x = feedMem m bx x := by
  unfold feedMem
  split_ifs
  · exact h x hx
  · exact scroll_congr h hx

theorem putCell_congr (h : m' x = m x) : putCell m' bx c x = putCell m bx c x := by
  simp only [putCell,Function.update_apply,h]

/-- What is painted depends on the text memory only. -/
theorem paint_congr (h : ∀ x, InVideo x → m' x = m x) (hx : InVideo x) :
    paint m' bx c x = paint m bx c x := by
  unfold paint
  split_ifs
  · exact feedMem_congr h hx
  · exact putCell_congr (h x hx)
  · exact putCell_congr (h x hx)
  · exact feedMem_congr (fun y hy => putCell_congr (h y hy)) hx

theorem paintAll_congr (h : ∀ x, InVideo x → m' x = m x) (hx : InVideo x) :
    paintAll m' bx cs x = paintAll m bx cs x := by
  induction cs generalizing m m' bx with
  | nil => exact h x hx
  | cons c cs ih => exact ih fun y hy => paint_congr h hy

theorem paintAll_append : paintAll m bx (cs++ds) = paintAll (paintAll m bx cs) (cs.foldl advance bx) ds := by
  induction cs generalizing m bx with
  | nil => rfl
  | cons c cs ih => exact ih

end Congruence

namespace Pc

/-- A text has been printed, with the bytes in F as scratch memory. -/
structure Prints (F : Word → Prop) (cs : List (BitVec 8)) (s s' : Pc) : Prop where
  cursor : s'.vga.cursor = cs.foldl advance s.vga.cursor
  text : ∀ x, InVideo x → s'.mem x = paintAll s.mem s.vga.cursor cs x
  frame : ∀ x, ¬InVideo x → ¬F x → s'.mem x = s.mem x

variable {F F' : Word → Prop} {cs ds : List (BitVec 8)} {s s' s'' : Pc}

/-- Nothing but scratch memory has changed. -/
theorem Prints.nil (hF : ∀ x, F x → ¬InVideo x) (hv : s'.vga = s.vga)
    (hm : ∀ x, ¬F x → s'.mem x = s.mem x) : Prints F [] s s' :=
  ⟨congrArg Vga.cursor hv,fun x hx => hm x fun h => hF x h hx,fun x _ hx => hm x hx⟩

theorem Prints.mono (h : Prints F cs s s') (hF : ∀ x, F x → F' x) : Prints F' cs s s' :=
  ⟨h.cursor,h.text,fun x hv hx => h.frame x hv fun h' => hx (hF x h')⟩

theorem Prints.trans (h : Prints F cs s s') (h' : Prints F ds s' s'') :
    Prints F (cs++ds) s s'' := by
  refine ⟨?_,fun x hx => ?_,fun x hv hx => (h'.frame x hv hx).trans (h.frame x hv hx)⟩
  · rw [h'.cursor,h.cursor,List.foldl_append]
  · rw [h'.text x hx,h.cursor,paintAll_append]
    exact paintAll_congr h.text hx

theorem Prints.addEsp (h : Prints F cs s s') (n : Word) : Prints F cs s (s'.addEsp n) :=
  ⟨h.cursor,h.text,h.frame⟩

theorem Prints.setReg (h : Prints F cs s s') (r : Reg) (w : Word) :
    Prints F cs s (s'.setReg r w) := ⟨h.cursor,h.text,h.frame⟩

end Pc
end OsKernel

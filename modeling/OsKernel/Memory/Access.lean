import OsKernel.Library.Window
import OsKernel.Memory.Machine

/-! Accesses to memory. A computation that only uses a window of the address space acts on the
view through the window. -/
namespace OsKernel
open Paging ByteMemory Exec KernelM

section Direct
variable {m : Machine} {a p v : ℕ}

theorem physical_eq (h : m.translate a = some p) : physical a m = (.ok p,m) := by
  simp only [physical,h]

theorem load_eq (h : m.translate a = some p) : load a m = (.ok (load32 m.mem p),m) := by
  rw [load,Exec.bind_of_ok (physical_eq h)]
  rfl

theorem store_eq (h : m.translate a = some p) :
    store a v m = (.ok (),m.setMem (store32 m.mem p v)) := by
  rw [store,Exec.bind_of_ok (physical_eq h)]
  rfl

theorem loadByte_eq (h : m.translate a = some p) : loadByte a m = (.ok (m.mem p),m) := by
  rw [loadByte,Exec.bind_of_ok (physical_eq h)]
  rfl

theorem storeByte_eq {x : BitVec 8} (h : m.translate a = some p) :
    storeByte a x m = (.ok (),m.setMem (store8 m.mem p x)) := by
  rw [storeByte,Exec.bind_of_ok (physical_eq h)]
  rfl

theorem kassert_eq {c : Prop} [Decidable c] {func text : String} (h : c) :
    kassert c func text m = (.ok (),m) := by
  rw [kassert,assert_of h]
  rfl

end Direct

/-- From every memory that the window shows as V, and that differs from the memory of m on
writable pages only, the computation returns r and leaves a memory that shows as V'. -/
def Acts {α : Type} (m : Machine) (τ : ℕ → Option ℕ) (W : Set ℕ) (x : KernelM α)
    (V : ByteMemory) (r : α) (V' : ByteMemory) : Prop :=
  ∀ mem, Only τ W m.mem mem → view τ mem = V →
    ∃ mem', x (m.setMem mem) = (.ok r,m.setMem mem') ∧ Only τ W m.mem mem' ∧ view τ mem' = V'

namespace Acts
variable {α β : Type} {m : Machine} {τ : ℕ → Option ℕ} {W : Set ℕ} {V V' V'' : ByteMemory}
  {x : KernelM α} {f : α → KernelM β} {r : α} {r' : β} {a b n v g : ℕ}

theorem pure (r : α) : Acts m τ W (Pure.pure r) V r V :=
  fun mem ho hv => ⟨mem,rfl,ho,hv⟩

theorem bind (hx : Acts m τ W x V r V') (hf : Acts m τ W (f r) V' r' V'') :
    Acts m τ W (x >>= f) V r' V'' := by
  intro mem ho hv
  obtain ⟨mem₁,h₁,ho₁,hv₁⟩ := hx mem ho hv
  obtain ⟨mem₂,h₂,ho₂,hv₂⟩ := hf mem₁ ho₁ hv₁
  exact ⟨mem₂,by rw [Exec.bind_of_ok h₁,h₂],ho₂,hv₂⟩

theorem kassert {c : Prop} [Decidable c] {func text : String} (h : c) :
    Acts m τ W (kassert c func text) V () V :=
  fun mem ho hv => ⟨mem,kassert_eq h,ho,hv⟩

theorem mono {W' : Set ℕ} (h : ∀ mem, Only τ W m.mem mem → Acts (m.setMem mem) τ W' x V r V')
    (hw : W' ⊆ W) : Acts m τ W x V r V' := by
  intro mem ho hv
  obtain ⟨mem',h',ho',hv'⟩ := h mem ho mem .refl hv
  exact ⟨mem',h',ho.trans (ho'.mono hw),hv'⟩

section Window
variable (h : Window (m.cr3/pageSize) m.mem τ W)
include h

theorem translate_eq {mem : ByteMemory} (ho : Only τ W m.mem mem)
    (hf : τ (a/4096) = some g) : (m.setMem mem).translate a = some (4096*g+a % 4096) :=
  (h.of_only ho).walk hf

theorem load (hf : (τ (a/4096)).isSome) (ha : a % 4 = 0) :
    Acts m τ W (load a) V (load32 V a) V := by
  intro mem ho hv
  obtain ⟨g,hg⟩ := Option.isSome_iff_exists.mp hf
  refine ⟨mem,?_,ho,hv⟩
  rw [load_eq (translate_eq h ho hg),← hv,load32_view hg ha]
  rfl

theorem store (hf : (τ (a/4096)).isSome) (ha : a % 4 = 0) (hw : a/4096 ∈ W) :
    Acts m τ W (store a v) V () (store32 V a v) := by
  intro mem ho hv
  obtain ⟨g,hg⟩ := Option.isSome_iff_exists.mp hf
  refine ⟨store32 mem (4096*g+a % 4096) v,?_,ho.trans (only_store32 hg ha hw),?_⟩
  · rw [store_eq (translate_eq h ho hg)]
    rfl
  · rw [view_store32 h.inj hg ha,hv]

theorem loadByte (hf : (τ (a/4096)).isSome) : Acts m τ W (loadByte a) V (V a) V := by
  intro mem ho hv
  obtain ⟨g,hg⟩ := Option.isSome_iff_exists.mp hf
  refine ⟨mem,?_,ho,hv⟩
  rw [loadByte_eq (translate_eq h ho hg),← hv,view_of_some hg]
  rfl

theorem storeByte {y : BitVec 8} (hf : (τ (a/4096)).isSome) (hw : a/4096 ∈ W) :
    Acts m τ W (storeByte a y) V () (store8 V a y) := by
  intro mem ho hv
  obtain ⟨g,hg⟩ := Option.isSome_iff_exists.mp hf
  refine ⟨store8 mem (4096*g+a % 4096) y,?_,ho.trans (only_store8 hg hw),?_⟩
  · rw [storeByte_eq (translate_eq h ho hg)]
    rfl
  · rw [view_store8 h.inj hg,hv]

theorem memsetLoop {y : BitVec 8}
    (hf : ∀ k, k < n → (τ ((a+k)/4096)).isSome ∧ (a+k)/4096 ∈ W) :
    Acts m τ W (memsetLoop a y n) V () (fill V a n y) := by
  induction n generalizing a V with
  | zero =>
    rw [fill_zero]
    exact pure ()
  | succ n ih =>
    rw [fill_succ]
    refine bind (storeByte h (hf 0 (by omega)).1 (hf 0 (by omega)).2) (ih fun k hk => ?_)
    rw [show a+1+k = a+(k+1) by omega]
    exact hf (k+1) (by omega)

theorem memset {y : BitVec 8} (ha : a ≠ 0)
    (hf : ∀ k, k < n → (τ ((a+k)/4096)).isSome ∧ (a+k)/4096 ∈ W) :
    Acts m τ W (memset a y n) V () (fill V a n y) :=
  bind (kassert ha) (memsetLoop h hf)

/-- The bytes are copied one after the other, which is the same as all at once when the
regions are disjoint. -/
theorem memcpyLoop (hf : ∀ k, k < n → (τ ((a+k)/4096)).isSome ∧ (a+k)/4096 ∈ W)
    (hs : ∀ k, k < n → (τ ((b+k)/4096)).isSome) (hd : a+n ≤ b ∨ b+n ≤ a) :
    Acts m τ W (memcpyLoop a b n) V () (copy V a b n) := by
  induction n generalizing a b V with
  | zero =>
    rw [copy_zero]
    exact pure ()
  | succ n ih =>
    rw [copy_succ (by omega)]
    refine bind (loadByte h (hs 0 (by omega)))
      (bind (storeByte h (hf 0 (by omega)).1 (hf 0 (by omega)).2)
        (ih (fun k hk => ?_) (fun k hk => ?_) (by omega)))
    · rw [show a+1+k = a+(k+1) by omega]
      exact hf (k+1) (by omega)
    · rw [show b+1+k = b+(k+1) by omega]
      exact hs (k+1) (by omega)

theorem memcpy (ha : a ≠ 0) (hb : b ≠ 0)
    (hf : ∀ k, k < n → (τ ((a+k)/4096)).isSome ∧ (a+k)/4096 ∈ W)
    (hs : ∀ k, k < n → (τ ((b+k)/4096)).isSome) (hd : a+n ≤ b ∨ b+n ≤ a) :
    Acts m τ W (memcpy a b n) V () (copy V a b n) :=
  bind (kassert ⟨ha,hb⟩) (memcpyLoop h hf hs hd)

end Window
end Acts
end OsKernel

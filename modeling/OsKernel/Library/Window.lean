import OsKernel.Library.Paging

/-! Windows of an address space: pages with known frames, some of which can be written without
changing any translation. Seen through a window, the memory is a memory of its own, and a
write through the window is a write to that memory. -/
namespace Paging
open ByteMemory

/-- The content of every virtual address, where τ gives the frames of the pages. -/
def view (τ : ℕ → Option ℕ) (mem : ByteMemory) : ByteMemory := fun a =>
  match τ (a/4096) with
  | some f => mem (4096*f+a % 4096)
  | none => 0

/-- Only frames of the pages in W differ. -/
def Only (τ : ℕ → Option ℕ) (W : Set ℕ) (mem mem' : ByteMemory) : Prop :=
  ∀ f, (∀ v ∈ W, τ v ≠ some f) → SameFrame mem mem' f

/-- The pages have the frames that τ says, and keep them when pages in W are written. -/
structure Window (dir : ℕ) (mem : ByteMemory) (τ : ℕ → Option ℕ) (W : Set ℕ) : Prop where
  inj : ∀ v w f, τ v = some f → τ w = some f → v = w
  stable : ∀ mem', Only τ W mem mem' → ∀ v f, τ v = some f → lookup mem' dir v = some f

section Views
variable {τ : ℕ → Option ℕ} {W W' : Set ℕ} {mem mem' mem'' : ByteMemory} {dir a b f n v w : ℕ}

theorem Only.refl : Only τ W mem mem := fun f _ => .refl mem f

theorem Only.trans (h : Only τ W mem mem') (h' : Only τ W mem' mem'') : Only τ W mem mem'' :=
  fun f hf => (h f hf).trans (h' f hf)

theorem Only.mono (h : Only τ W mem mem') (hw : W ⊆ W') : Only τ W' mem mem' :=
  fun f hf => h f fun v hv => hf v (hw hv)

theorem Window.of_only (h : Window dir mem τ W) (ho : Only τ W mem mem') :
    Window dir mem' τ W :=
  ⟨h.inj,fun mem'' ho' => h.stable mem'' (ho.trans ho')⟩

theorem Window.mono (h : Window dir mem τ W) (hw : W' ⊆ W) : Window dir mem τ W' :=
  ⟨h.inj,fun mem' ho => h.stable mem' (ho.mono hw)⟩

theorem Window.walk (h : Window dir mem τ W) (hf : τ (a/4096) = some f) :
    walk mem dir a = some (4096*f+a % 4096) := by
  rw [Paging.walk,h.stable mem .refl _ _ hf,Option.map_some]

theorem view_of_some (hf : τ (a/4096) = some f) : view τ mem a = mem (4096*f+a % 4096) := by
  rw [view,hf]

theorem load32_view (hf : τ (a/4096) = some f) (ha : a % 4 = 0) :
    load32 (view τ mem) a = load32 mem (4096*f+a % 4096) := by
  have hbyte : ∀ k, k < 4 → view τ mem (a+k) = mem (4096*f+a % 4096+k) := by
    intro k hk
    rw [view_of_some (show τ ((a+k)/4096) = some f by rwa [show (a+k)/4096 = a/4096 by omega]),
      show 4096*f+(a+k) % 4096 = 4096*f+a % 4096+k by omega]
  simp only [load32,view_of_some hf,hbyte 1 (by decide),hbyte 2 (by decide),
    hbyte 3 (by decide)]

/-- The window shows a write to one of its words. -/
theorem view_store32 (hinj : ∀ v w f, τ v = some f → τ w = some f → v = w)
    (hf : τ (a/4096) = some f) (ha : a % 4 = 0) :
    view τ (store32 mem (4096*f+a % 4096) w) = store32 (view τ mem) a w := by
  funext p
  simp only [view,store32]
  cases hp : τ (p/4096) with
  | none =>
    rw [if_neg]
    intro hc
    rw [show p/4096 = a/4096 by omega,hf] at hp
    contradiction
  | some g =>
    dsimp only
    by_cases he : p/4096 = a/4096
    · rw [he,hf] at hp
      obtain rfl := Option.some.inj hp
      by_cases hc : a ≤ p ∧ p < a+4
      · rw [if_pos hc,if_pos (by omega),
          show 4096*f+p % 4096-(4096*f+a % 4096) = p-a by omega]
      · rw [if_neg hc,if_neg (by omega)]
    · have hg : g ≠ f := fun e => he (hinj _ _ f (e ▸ hp) hf)
      rw [if_neg (by omega),if_neg (by omega)]

theorem view_store8 (hinj : ∀ v w f, τ v = some f → τ w = some f → v = w)
    (hf : τ (a/4096) = some f) {x : BitVec 8} :
    view τ (store8 mem (4096*f+a % 4096) x) = store8 (view τ mem) a x := by
  funext p
  by_cases he : p = a
  · subst he
    rw [view_of_some hf,store8,store8,Function.update_self,Function.update_self]
  · simp only [view,store8,Function.update_of_ne he]
    cases hp : τ (p/4096) with
    | none => rfl
    | some g =>
      dsimp only
      rw [Function.update_of_ne]
      intro hc
      obtain rfl : g = f := by omega
      have := hinj _ _ g hp hf
      omega

theorem only_store32 (hf : τ (a/4096) = some f) (ha : a % 4 = 0) (hw : a/4096 ∈ W) :
    Only τ W mem (store32 mem (4096*f+a % 4096) w) := by
  intro g hg
  have hne : f ≠ g := fun e => hg _ hw (e ▸ hf)
  exact sameFrame_store32 (by omega) (by omega)

theorem only_store8 (hf : τ (a/4096) = some f) (hw : a/4096 ∈ W) {x : BitVec 8} :
    Only τ W mem (store8 mem (4096*f+a % 4096) x) := by
  intro g hg p hp
  rw [store8,Function.update_of_ne]
  have hne : f ≠ g := fun e => hg _ hw (e ▸ hf)
  omega

end Views

section Table
variable {mem mem' : ByteMemory} {dir i g : ℕ}

/-- The window on a page table through the last entry of the directory. -/
def tableWindow (i g : ℕ) (v : ℕ) : Option ℕ := if v = 0xffc00+i then some g else none

theorem SelfMapped.window (h : SelfMapped mem dir) (hi : i < 1024)
    (hg : target (word mem dir i) = some g) (hne : dir ≠ g) :
    Window dir mem (tableWindow i g) {0xffc00+i} := by
  have heq : ∀ {v f}, tableWindow i g v = some f → v = 0xffc00+i ∧ f = g := by
    intro v f hv
    unfold tableWindow at hv
    split at hv
    · exact ⟨‹_›,(Option.some.inj hv).symm⟩
    · contradiction
  refine ⟨fun v w f hv hw => (heq hv).1.trans (heq hw).1.symm,fun mem' ho v f hv => ?_⟩
  obtain ⟨rfl,rfl⟩ := heq hv
  have hdir : SameFrame mem mem' dir := ho dir fun w _ hw => hne (heq hw).2
  have hself : SelfMapped mem' dir := by
    rw [SelfMapped,hdir.word_eq (by decide)]
    exact h
  rw [hself.lookup_table hi,hdir.word_eq hi,hg]

/-- A fill of the whole window is a fill of the frame. -/
theorem fill_of_tableWindow {x : BitVec 8} (ho : Only (tableWindow i g) {0xffc00+i} mem mem')
    (hv : view (tableWindow i g) mem' =
      fill (view (tableWindow i g) mem) (4096*(0xffc00+i)) 4096 x) :
    mem' = fill mem (4096*g) 4096 x := by
  funext p
  by_cases hp : p/4096 = g
  · have hb := congrFun hv (4096*(0xffc00+i)+p % 4096)
    rw [fill_of_mem (by omega) (by omega),view_of_some (f := g) (if_pos (by omega))] at hb
    rw [fill_of_mem (by omega) (by omega),← hb]
    congr 1
    omega
  · rw [fill_of_not_mem (by omega)]
    refine ho (p/4096) (fun w _ hw => ?_) p rfl
    unfold tableWindow at hw
    split at hw
    · exact hp (Option.some.inj hw).symm
    · contradiction

end Table
end Paging

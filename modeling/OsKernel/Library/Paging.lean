import OsKernel.Library.ByteMemory

/-! Two-level paging of 32-bit addresses with pages of 4096 bytes. Frames, pages and table
entries are numbered; an entry is present when its lowest bit is set, and its upper 20 bits
are the number of a frame. -/
namespace Paging
open ByteMemory

/-- The entry j of the table in the frame f. -/
def word (mem : ByteMemory) (f j : ℕ) : ℕ := load32 mem (4096*f+4*j)

/-- The frame that an entry names, when it is present. -/
def target (e : ℕ) : Option ℕ := if e % 2 = 1 then some (e/4096) else none

/-- The frame that the page has under a page directory. -/
def lookup (mem : ByteMemory) (dir vpn : ℕ) : Option ℕ :=
  (target (word mem dir (vpn/1024))).bind fun table => target (word mem table (vpn % 1024))

/-- The physical address that a virtual address has under a page directory. -/
def walk (mem : ByteMemory) (dir va : ℕ) : Option ℕ :=
  (lookup mem dir (va/4096)).map fun f => 4096*f+va % 4096

/-- The two memories agree on a frame. -/
def SameFrame (mem mem' : ByteMemory) (f : ℕ) : Prop :=
  ∀ p, p/4096 = f → mem' p = mem p

section Words
variable {mem mem' : ByteMemory} {f g i j v n : ℕ}

theorem SameFrame.refl (mem : ByteMemory) (f : ℕ) : SameFrame mem mem f := fun _ _ => rfl

theorem SameFrame.trans {mem'' : ByteMemory} (h : SameFrame mem mem' f)
    (h' : SameFrame mem' mem'' f) : SameFrame mem mem'' f :=
  fun p hp => (h' p hp).trans (h p hp)

theorem SameFrame.word_eq (h : SameFrame mem mem' f) (hj : j < 1024) :
    word mem' f j = word mem f j :=
  load32_congr fun p _ _ => h p (by omega)

theorem word_store32_self (hv : v < 2^32) : word (store32 mem (4096*f+4*j) v) f j = v :=
  load32_store32_self hv

theorem word_store32_of_ne (hj : j < 1024) (hi : i < 1024) (hne : ¬ (g = f ∧ i = j)) :
    word (store32 mem (4096*f+4*j) v) g i = word mem g i := by
  apply load32_store32_of_disjoint
  by_cases hg : g = f
  · subst hg
    have : i ≠ j := fun e => hne ⟨rfl,e⟩
    omega
  · omega

theorem sameFrame_store32 {a : ℕ} (h₁ : a/4096 ≠ f) (h₂ : (a+3)/4096 ≠ f) :
    SameFrame mem (store32 mem a v) f := by
  intro p hp
  apply store32_of_not_mem
  omega

theorem sameFrame_store32_word (hj : j < 1024) (hne : g ≠ f) :
    SameFrame mem (store32 mem (4096*f+4*j) v) g :=
  sameFrame_store32 (by omega) (by omega)

theorem word_fill_self (hj : j < 1024) : word (fill mem (4096*f) 4096 0) f j = 0 :=
  load32_fill_zero (by omega) (by omega)

theorem sameFrame_fill {a : ℕ} {x : BitVec 8} (h : ∀ p, a ≤ p → p < a+n → p/4096 ≠ f) :
    SameFrame mem (fill mem a n x) f := by
  intro p hp
  apply fill_of_not_mem
  by_contra hc
  exact h p (by omega) (by omega) hp

theorem target_entry : target (4096*f+7) = some f := by
  rw [target,if_pos (by omega)]
  congr 1
  omega

theorem target_of_even (h : v % 2 = 0) : target v = none := if_neg (by omega)

theorem target_zero : target 0 = none := rfl

theorem target_eq_some_iff : target v = some f ↔ v % 2 = 1 ∧ v/4096 = f := by
  unfold target
  split <;> simp [*]

end Words

section SelfMap
variable {mem : ByteMemory} {dir i j : ℕ}

/-- The last entry of the directory points to the directory. -/
def SelfMapped (mem : ByteMemory) (dir : ℕ) : Prop := target (word mem dir 1023) = some dir

/-- The page 0xffc00+i is the table of the entry i. -/
theorem SelfMapped.lookup_table (h : SelfMapped mem dir) (hi : i < 1024) :
    lookup mem dir (0xffc00+i) = target (word mem dir i) := by
  have hd : (0xffc00+i)/1024 = 1023 := by omega
  have hm : (0xffc00+i) % 1024 = i := by omega
  rw [lookup,hd,hm,h]
  rfl

/-- The word at 0xfffff000+4*i is the entry i of the directory. -/
theorem SelfMapped.walk_pde (h : SelfMapped mem dir) (hi : i < 1024) :
    walk mem dir (0xfffff000+4*i) = some (4096*dir+4*i) := by
  have hd : (0xfffff000+4*i)/4096 = 0xffc00+1023 := by omega
  have hm : (0xfffff000+4*i) % 4096 = 4*i := by omega
  rw [walk,hd,hm,h.lookup_table (by decide),h]
  rfl

/-- The word at 0xffc00000+4096*i+4*j is the entry j of the table i. -/
theorem SelfMapped.walk_pte (h : SelfMapped mem dir) (hi : i < 1024) (hj : j < 1024) :
    walk mem dir (0xffc00000+4096*i+4*j) =
      (target (word mem dir i)).map fun table => 4096*table+4*j := by
  have hd : (0xffc00000+4096*i+4*j)/4096 = 0xffc00+i := by omega
  have hm : (0xffc00000+4096*i+4*j) % 4096 = 4*j := by omega
  rw [walk,hd,hm,h.lookup_table hi]

end SelfMap
section Entries
variable {mem mem' : ByteMemory} {dir table g e v w : ℕ}

/-- The word that holds the entry of a page: its frame and its index there. -/
def pteWord (mem : ByteMemory) (dir v : ℕ) : Option (ℕ × ℕ) :=
  (target (word mem dir (v/1024))).map fun table => (table,v % 1024)

theorem pteWord_of_target (h : target (word mem dir (v/1024)) = some table) :
    pteWord mem dir v = some (table,v % 1024) := by
  rw [pteWord,h]
  rfl

theorem lookup_of_target (h : target (word mem dir (v/1024)) = some table) :
    lookup mem dir v = target (word mem table (v % 1024)) := by
  rw [lookup,h]
  rfl

/-- Pages that share the word of their entries have the same frame. -/
theorem lookup_eq_of_pteWord (h : pteWord mem dir v = pteWord mem dir w) :
    lookup mem dir v = lookup mem dir w := by
  cases hv : target (word mem dir (v/1024)) with
  | none =>
    cases hw : target (word mem dir (w/1024)) with
    | none => rw [lookup,lookup,hv,hw]; rfl
    | some table => simp [pteWord,hv,hw] at h
  | some table =>
    cases hw : target (word mem dir (w/1024)) with
    | none => simp [pteWord,hv,hw] at h
    | some table' =>
      simp only [pteWord,hv,hw,Option.map_some,Option.some.injEq,Prod.mk.injEq] at h
      rw [lookup_of_target hv,lookup_of_target hw,h.1,h.2]

/-- The memory after an entry of the page table of v has been written. -/
abbrev setEntry (mem : ByteMemory) (table v e : ℕ) : ByteMemory :=
  store32 mem (4096*table+4*(v % 1024)) e

/-- The memory after an empty page table has been entered for v. -/
abbrev enterTable (mem : ByteMemory) (dir table v : ℕ) : ByteMemory :=
  fill (store32 mem (4096*dir+4*(v/1024)) (4096*table+7)) (4096*table) 4096 0

theorem word_dir_setEntry (hne : table ≠ dir) (hw : w < 1024) :
    word (setEntry mem table v e) dir w = word mem dir w :=
  word_store32_of_ne (Nat.mod_lt _ (by decide)) hw fun h => hne h.1.symm

/-- The page gets the frame of the entry. -/
theorem lookup_setEntry (ht : target (word mem dir (v/1024)) = some table) (hne : table ≠ dir)
    (hv : v/1024 < 1024) (he : e < 2^32) : lookup (setEntry mem table v e) dir v = target e := by
  rw [lookup_of_target ((congrArg target (word_dir_setEntry hne hv)).trans ht),
    word_store32_self he]

/-- A page with its entry in another word keeps its frame, or stays without one. -/
theorem lookup_setEntry_of_ne (ht : target (word mem dir (v/1024)) = some table)
    (hne : table ≠ dir) (hv : v/1024 < 1024) (hw : w/1024 < 1024)
    (h : pteWord (setEntry mem table v e) dir w ≠ pteWord (setEntry mem table v e) dir v) :
    lookup (setEntry mem table v e) dir w = lookup mem dir w := by
  have hpw : target (word (setEntry mem table v e) dir (w/1024)) = target (word mem dir (w/1024)) :=
    congrArg target (word_dir_setEntry hne hw)
  have hpv : target (word (setEntry mem table v e) dir (v/1024)) = some table :=
    (congrArg target (word_dir_setEntry hne hv)).trans ht
  cases hcase : target (word mem dir (w/1024)) with
  | none =>
    rw [lookup,lookup,hpw,hcase]
    rfl
  | some table' =>
    rw [pteWord_of_target hpv,pteWord_of_target (hpw.trans hcase)] at h
    rw [lookup_of_target (hpw.trans hcase),lookup_of_target hcase,
      word_store32_of_ne (Nat.mod_lt _ (by decide)) (Nat.mod_lt _ (by decide))]
    rintro ⟨rfl,hj⟩
    exact h (by rw [hj])

section NewTable
variable (hself : SelfMapped mem dir) (hv : v/1024 < 1023) (hg : g < 2^20) (hne : g ≠ dir)
include hv hg hne

theorem word_dir_enterTable (hw : w < 1024) : word (enterTable mem dir g v) dir w =
    if w = v/1024 then 4096*g+7 else word mem dir w := by
  have hfill : SameFrame (store32 mem (4096*dir+4*(v/1024)) (4096*g+7))
      (enterTable mem dir g v) dir := sameFrame_fill fun p h₁ h₂ => by omega
  rw [hfill.word_eq hw]
  split_ifs with h
  · rw [h,word_store32_self (by omega)]
  · exact word_store32_of_ne (by omega) hw fun h' => h h'.2

theorem target_enterTable : target (word (enterTable mem dir g v) dir (v/1024)) = some g := by
  rw [word_dir_enterTable hv hg hne (by omega),if_pos rfl,target_entry]

include hself in
theorem selfMapped_enterTable : SelfMapped (enterTable mem dir g v) dir := by
  rw [SelfMapped,word_dir_enterTable hv hg hne (by decide),if_neg (by omega)]
  exact hself

/-- No page gets a frame by an empty table, and none loses one when the frame of the table is
new. -/
theorem lookup_enterTable (hpde : target (word mem dir (v/1024)) = none)
    (hfresh : ∀ i < 1024, target (word mem dir i) ≠ some g)
    (hapart : ∀ i < 1023, target (word mem dir i) ≠ some dir) (hw : w/1024 < 1023) :
    lookup (enterTable mem dir g v) dir w = lookup mem dir w := by
  have hdir : word (enterTable mem dir g v) dir (w/1024) =
      if w/1024 = v/1024 then 4096*g+7 else word mem dir (w/1024) :=
    word_dir_enterTable hv hg hne (by omega)
  by_cases he : w/1024 = v/1024
  · rw [if_pos he] at hdir
    have ht : target (word (enterTable mem dir g v) dir (w/1024)) = some g := by
      rw [hdir,target_entry]
    rw [lookup_of_target ht,word_fill_self (Nat.mod_lt _ (by decide)),target_zero,lookup,he,hpde]
    rfl
  · rw [if_neg he] at hdir
    cases hcase : target (word mem dir (w/1024)) with
    | none =>
      rw [lookup,lookup,hdir,hcase]
      rfl
    | some table =>
      have h₁ : table ≠ dir := fun h => hapart _ hw (h ▸ hcase)
      have h₂ : table ≠ g := fun h => hfresh _ (by omega) (h ▸ hcase)
      have hstore : SameFrame mem (store32 mem (4096*dir+4*(v/1024)) (4096*g+7)) table :=
        sameFrame_store32_word (by omega) h₁
      have hfill : SameFrame (store32 mem (4096*dir+4*(v/1024)) (4096*g+7))
          (enterTable mem dir g v) table := sameFrame_fill fun p h₁ h₂ => by omega
      rw [lookup_of_target ((congrArg target hdir).trans hcase),lookup_of_target hcase,
        (hstore.trans hfill).word_eq (Nat.mod_lt _ (by decide))]

end NewTable
end Entries

/-- What is found at a virtual address under a page directory. -/
def fetch (mem : ByteMemory) (dir va : ℕ) : Option (BitVec 8) := (walk mem dir va).map mem

/-- The first n pages under a directory are mapped as before, and their frames are as before. -/
def SamePages (dir n : ℕ) (mem mem' : ByteMemory) : Prop := ∀ v < n,
  lookup mem' dir v = lookup mem dir v ∧ ∀ f, lookup mem dir v = some f → SameFrame mem mem' f

section SamePages
variable {mem mem' mem'' : ByteMemory} {dir n va : ℕ}

theorem SamePages.refl (mem : ByteMemory) (dir n : ℕ) : SamePages dir n mem mem :=
  fun _ _ => ⟨rfl,fun f _ => .refl mem f⟩

theorem SamePages.trans (h : SamePages dir n mem mem') (h' : SamePages dir n mem' mem'') :
    SamePages dir n mem mem'' := by
  intro v hv
  obtain ⟨hl,hf⟩ := h v hv
  obtain ⟨hl',hf'⟩ := h' v hv
  exact ⟨hl'.trans hl,fun f hlook => (hf f hlook).trans (hf' f (hl.trans hlook))⟩

theorem SamePages.fetch_eq (h : SamePages dir n mem mem') (hva : va < 4096*n) :
    fetch mem' dir va = fetch mem dir va := by
  obtain ⟨hl,hf⟩ := h (va/4096) (by omega)
  rw [fetch,fetch,walk,walk,hl]
  cases hlook : lookup mem dir (va/4096) with
  | none => rfl
  | some f =>
    have hframe : (4096*f+va % 4096)/4096 = f := by omega
    exact congrArg some (hf f hlook _ hframe)

end SamePages
end Paging

import Mathlib.Data.List.Lex
import Mathlib.Tactic

/-! Three-way comparisons: the sign of a comparison in a linear order, and the place where two
lists differ first, which decides about their lexicographic order. -/
namespace OrderSign
variable {α β : Type*}

/-- Two lists agree up to a place where the first has x and the second has y. -/
def FirstDiff (as bs : List α) (x y : α) : Prop :=
  x ≠ y ∧ ∃ common as' bs', as = common++x::as' ∧ bs = common++y::bs'

section FirstDiff
variable {as bs : List α} {a b x y : α}

lemma firstDiff_cons_of_ne (h : a ≠ b) : FirstDiff (a::as) (b::bs) a b := ⟨h,[],as,bs,rfl,rfl⟩

lemma FirstDiff.cons (h : FirstDiff as bs x y) (a : α) : FirstDiff (a::as) (a::bs) x y := by
  obtain ⟨hne,common,as',bs',rfl,rfl⟩ := h
  exact ⟨hne,a::common,as',bs',rfl,rfl⟩

lemma FirstDiff.ne (h : FirstDiff as bs x y) : as ≠ bs := by
  obtain ⟨hne,common,as',bs',rfl,rfl⟩ := h
  intro he
  exact hne (List.cons.inj (List.append_cancel_left he)).1

/-- So do different lists that are ended by a mark which does not occur in them. -/
lemma exists_firstDiff_ended {z : α} (ha : z ∉ as) (hb : z ∉ bs) (hne : as ≠ bs) :
    ∃ x y, FirstDiff (as++[z]) (bs++[z]) x y := by
  induction as generalizing bs with
  | nil =>
    cases bs with
    | nil => exact absurd rfl hne
    | cons b bs => exact ⟨z,b,firstDiff_cons_of_ne (List.ne_of_not_mem_cons hb)⟩
  | cons a as ih =>
    cases bs with
    | nil => exact ⟨a,z,firstDiff_cons_of_ne (List.ne_of_not_mem_cons ha).symm⟩
    | cons b bs =>
      by_cases hab : a = b
      · subst hab
        obtain ⟨x,y,h⟩ := ih (List.not_mem_of_not_mem_cons ha) (List.not_mem_of_not_mem_cons hb)
          fun he => hne (congrArg _ he)
        exact ⟨x,y,h.cons a⟩
      · exact ⟨a,b,firstDiff_cons_of_ne hab⟩

end FirstDiff

/-- The sign of a comparison. -/
def sign [LinearOrder α] (x y : α) : ℤ := if x < y then -1 else if y < x then 1 else 0

section Sign
variable [LinearOrder α] {x y z : α}

@[simp] lemma sign_self : sign x x = 0 := by simp [sign]

lemma sign_of_lt (h : x < y) : sign x y = -1 := if_pos h

lemma sign_of_gt (h : y < x) : sign x y = 1 := by rw [sign,if_neg h.asymm,if_pos h]

lemma sign_eq_zero : sign x y = 0 ↔ x = y := by
  rcases lt_trichotomy x y with h|rfl|h
  · simp [sign_of_lt h,h.ne]
  · simp
  · simp [sign_of_gt h,h.ne']

lemma sign_le_zero : sign x y ≤ 0 ↔ x ≤ y := by
  rcases lt_trichotomy x y with h|rfl|h
  · simp [sign_of_lt h,h.le]
  · simp
  · simp [sign_of_gt h,h]

end Sign

section Lists
variable [LinearOrder α] {as bs : List α} {a b x y z : α}

lemma sign_cons_self : sign (a::as) (a::bs) = sign as bs := by
  rcases lt_trichotomy as bs with h|rfl|h
  · rw [sign_of_lt h,sign_of_lt (List.cons_lt_cons_self.mpr h)]
  · simp
  · rw [sign_of_gt h,sign_of_gt (List.cons_lt_cons_self.mpr h)]

lemma sign_cons_of_ne (h : a ≠ b) : sign (a::as) (b::bs) = sign a b := by
  rcases h.lt_or_gt with hlt|hlt
  · rw [sign_of_lt hlt,sign_of_lt (List.cons_lt_cons_iff.mpr (.inl hlt))]
  · rw [sign_of_gt hlt,sign_of_gt (List.cons_lt_cons_iff.mpr (.inl hlt))]

/-- The first difference decides about the lexicographic order. -/
lemma sign_of_firstDiff (h : FirstDiff as bs x y) : sign as bs = sign x y := by
  obtain ⟨hne,common,as',bs',rfl,rfl⟩ := h
  induction common with
  | nil => exact sign_cons_of_ne hne
  | cons c common ih => exact sign_cons_self.trans ih

/-- A mark below all elements does not change the order of the lists that it ends. -/
lemma sign_ended (ha : ∀ a ∈ as, z < a) (hb : ∀ b ∈ bs, z < b) :
    sign (as++[z]) (bs++[z]) = sign as bs := by
  induction as generalizing bs with
  | nil =>
    cases bs with
    | nil => simp
    | cons b bs =>
      have hzb := hb b List.mem_cons_self
      rw [List.nil_append,List.cons_append,sign_cons_of_ne hzb.ne,sign_of_lt hzb]
      exact (sign_of_lt (List.nil_lt_cons b bs)).symm
  | cons a as ih =>
    have hza := ha a List.mem_cons_self
    cases bs with
    | nil =>
      rw [List.nil_append,List.cons_append,sign_cons_of_ne hza.ne',sign_of_gt hza]
      exact (sign_of_gt (List.nil_lt_cons a as)).symm
    | cons b bs =>
      by_cases hab : a = b
      · subst hab
        rw [List.cons_append,List.cons_append,sign_cons_self,sign_cons_self]
        exact ih (fun c hc => ha c (List.mem_cons_of_mem _ hc)) fun c hc =>
          hb c (List.mem_cons_of_mem _ hc)
      · rw [List.cons_append,List.cons_append,sign_cons_of_ne hab,sign_cons_of_ne hab]

end Lists

lemma FirstDiff.map {as bs : List α} {x y : α} (h : FirstDiff as bs x y) {f : α → β}
    (hf : Function.Injective f) : FirstDiff (as.map f) (bs.map f) (f x) (f y) := by
  obtain ⟨hne,common,as',bs',rfl,rfl⟩ := h
  exact ⟨fun he => hne (hf he),common.map f,as'.map f,bs'.map f,by simp,by simp⟩

end OrderSign

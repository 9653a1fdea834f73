import Mathlib

/-! Integer-valued comparison functions in the manner of `qsort`, and the functions that sort by
them. A comparison that reads off a linear order through a key sorts in one way only. -/
namespace NeOs.Library
variable {α κ : Type*}

/-- What a sorting function may rely on, for the elements it is given. -/
structure IsComparator (cmp : α → α → ℤ) (xs : List α) : Prop where
  sign : ∀ a ∈ xs, ∀ b ∈ xs, cmp a b ≤ 0 ↔ 0 ≤ cmp b a
  trans : ∀ a ∈ xs, ∀ b ∈ xs, ∀ c ∈ xs, cmp a b ≤ 0 → cmp b c ≤ 0 → cmp a c ≤ 0

/-- A sorting function: on every proper comparison it returns a sorted permutation. -/
structure Sorter (α : Type*) where
  sort : (α → α → ℤ) → List α → List α
  perm : ∀ {cmp xs}, IsComparator cmp xs → (sort cmp xs).Perm xs
  sorted : ∀ {cmp xs}, IsComparator cmp xs → (sort cmp xs).Pairwise fun a b => cmp a b ≤ 0

/-- The comparison has the sign of the order of the keys. -/
def ComparesBy [LinearOrder κ] (cmp : α → α → ℤ) (key : α → κ) (xs : List α) : Prop :=
  ∀ a ∈ xs, ∀ b ∈ xs, (cmp a b < 0 ↔ key a < key b) ∧ (cmp a b=0 ↔ key a=key b)

theorem ComparesBy.le_iff [LinearOrder κ] {cmp : α → α → ℤ} {key : α → κ} {xs : List α}
    (h : ComparesBy cmp key xs) {a b : α} (ha : a ∈ xs) (hb : b ∈ xs) :
    cmp a b ≤ 0 ↔ key a ≤ key b := by
  obtain ⟨hlt,heq⟩ := h a ha b hb
  rw [le_iff_lt_or_eq,hlt,heq,← le_iff_lt_or_eq]

theorem ComparesBy.isComparator [LinearOrder κ] {cmp : α → α → ℤ} {key : α → κ} {xs : List α}
    (h : ComparesBy cmp key xs) : IsComparator cmp xs := by
  constructor
  · intro a ha b hb
    rw [h.le_iff ha hb,← not_lt (b := (0 : ℤ)),(h b hb a ha).1,not_lt]
  · intro a ha b hb c hc hab hbc
    rw [h.le_iff ha hb] at hab
    rw [h.le_iff hb hc] at hbc
    rw [h.le_iff ha hc]
    exact hab.trans hbc

/-- The negated comparison reads off the reverse order. -/
theorem ComparesBy.neg [LinearOrder κ] {cmp : α → α → ℤ} {key : α → κ} {xs : List α}
    (h : ComparesBy cmp key xs) :
    ComparesBy (fun a b => -cmp a b) (OrderDual.toDual ∘ key) xs := by
  intro a ha b hb
  obtain ⟨hlt,heq⟩ := h a ha b hb
  simp only [Function.comp_apply,OrderDual.toDual_lt_toDual,OrderDual.toDual_inj,neg_eq_zero]
  refine ⟨?_,heq⟩
  rw [← not_le (a := key a),← h.le_iff ha hb]
  omega

/-- The laws of a total order in which `same` elements are equal. -/
structure OrdersTotally (cmp : α → α → ℤ) (same : α → α → Prop) (xs : List α) : Prop where
  sign_swap : ∀ a ∈ xs, ∀ b ∈ xs, (cmp a b).sign= -(cmp b a).sign
  trans : ∀ a ∈ xs, ∀ b ∈ xs, ∀ c ∈ xs, cmp a b ≤ 0 → cmp b c ≤ 0 → cmp a c ≤ 0
  trans_lt : ∀ a ∈ xs, ∀ b ∈ xs, ∀ c ∈ xs, cmp a b < 0 → cmp b c < 0 → cmp a c < 0
  eq_zero_iff : ∀ a ∈ xs, ∀ b ∈ xs, cmp a b=0 ↔ same a b

theorem ComparesBy.ordersTotally [LinearOrder κ] {cmp : α → α → ℤ} {key : α → κ} {xs : List α}
    (h : ComparesBy cmp key xs) : OrdersTotally cmp (fun a b => key a=key b) xs := by
  refine ⟨?_,h.isComparator.trans,?_,fun a ha b hb => (h a ha b hb).2⟩
  · intro a ha b hb
    have hab := h a ha b hb
    have hba := h b hb a ha
    rcases lt_trichotomy (key a) (key b) with hlt | heq | hgt
    · have hpos : 0 < cmp b a := by
        rw [← not_le,h.le_iff hb ha]
        exact not_le.mpr hlt
      rw [Int.sign_eq_neg_one_of_neg (hab.1.mpr hlt),Int.sign_eq_one_of_pos hpos]
    · rw [hab.2.mpr heq,hba.2.mpr heq.symm]
      rfl
    · have hpos : 0 < cmp a b := by
        rw [← not_le,h.le_iff ha hb]
        exact not_le.mpr hgt
      rw [Int.sign_eq_one_of_pos hpos,Int.sign_eq_neg_one_of_neg (hba.1.mpr hgt)]
      rfl
  · intro a ha b hb c hc hab hbc
    rw [(h a ha b hb).1] at hab
    rw [(h b hb c hc).1] at hbc
    rw [(h a ha c hc).1]
    exact hab.trans hbc

/-- Which elements are the same is the only thing the laws take from `same`. -/
theorem OrdersTotally.congr {cmp : α → α → ℤ} {same same' : α → α → Prop} {xs : List α}
    (h : OrdersTotally cmp same xs) (hs : ∀ a b, same a b ↔ same' a b) :
    OrdersTotally cmp same' xs :=
  ⟨h.sign_swap,h.trans,h.trans_lt,fun a ha b hb => (h.eq_zero_iff a ha b hb).trans (hs a b)⟩

/-- Sorting by a key gives a permutation in ascending order of the keys. -/
theorem Sorter.sort_by_key [LinearOrder κ] (S : Sorter α) {cmp : α → α → ℤ} {key : α → κ}
    {xs : List α} (h : ComparesBy cmp key xs) :
    (S.sort cmp xs).Perm xs ∧ (S.sort cmp xs).Pairwise fun a b => key a ≤ key b := by
  have hperm := S.perm h.isComparator
  refine ⟨hperm,?_⟩
  apply (S.sorted h.isComparator).imp_of_mem
  intro a b ha hb hab
  exact (h.le_iff (hperm.mem_iff.mp ha) (hperm.mem_iff.mp hb)).mp hab

/-- If moreover the keys are distinct, the order is strict. -/
theorem Sorter.sort_by_key_strict [LinearOrder κ] (S : Sorter α) {cmp : α → α → ℤ} {key : α → κ}
    {xs : List α} (h : ComparesBy cmp key xs) (hk : (xs.map key).Nodup) :
    (S.sort cmp xs).Pairwise fun a b => key a < key b := by
  obtain ⟨hperm,hsorted⟩ := S.sort_by_key h
  have hnodup : ((S.sort cmp xs).map key).Nodup := (hperm.map key).nodup_iff.mpr hk
  rw [List.Nodup,List.pairwise_map] at hnodup
  exact (hsorted.and hnodup).imp fun hab => lt_of_le_of_ne hab.1 hab.2

/-- With distinct keys there is one sorted list, so the negated comparison gives the same list
backwards. -/
theorem Sorter.sort_neg [LinearOrder κ] (S : Sorter α) {cmp : α → α → ℤ} {key : α → κ}
    {xs : List α} (h : ComparesBy cmp key xs) (hk : (xs.map key).Nodup) :
    S.sort (fun a b => -cmp a b) xs=(S.sort cmp xs).reverse := by
  obtain ⟨hperm,hsorted⟩ := S.sort_by_key h
  obtain ⟨hperm',hsorted'⟩ := S.sort_by_key h.neg
  have hsame : (S.sort (fun a b => -cmp a b) xs).Perm (S.sort cmp xs).reverse :=
    hperm'.trans (hperm.symm.trans (List.reverse_perm _).symm)
  have hback : (S.sort cmp xs).reverse.Pairwise fun a b => key b ≤ key a :=
    List.pairwise_reverse.mpr hsorted
  apply hsame.eq_of_pairwise _ hsorted' hback
  intro a b ha hb hab hba
  have hb' : b ∈ xs := (hperm.mem_iff.mp (List.mem_reverse.mp hb))
  exact List.inj_on_of_nodup_map hk (hperm'.mem_iff.mp ha) hb' (le_antisymm hba hab)

/-- Insertion sort is such a sorting function. -/
def Sorter.insertion : Sorter α where
  sort cmp xs := (xs.attach.insertionSort fun a b : {x // x ∈ xs} => cmp a.1 b.1 ≤ 0).map Subtype.val
  perm {cmp xs} _ := by
    have h := (List.perm_insertionSort (fun a b : {x // x ∈ xs} => cmp a.1 b.1 ≤ 0) xs.attach).map
      Subtype.val
    rwa [List.attach_map_subtype_val] at h
  sorted {cmp xs} h := by
    have htotal : Std.Total (fun a b : {x // x ∈ xs} => cmp a.1 b.1 ≤ 0) := ⟨by
      intro a b
      by_contra hno
      push Not at hno
      have := (h.sign a.1 a.2 b.1 b.2).mpr (by omega)
      omega⟩
    have htrans : IsTrans {x // x ∈ xs} (fun a b => cmp a.1 b.1 ≤ 0) := ⟨by
      intro a b c hab hbc
      exact h.trans a.1 a.2 b.1 b.2 c.1 c.2 hab hbc⟩
    rw [List.pairwise_map]
    exact List.pairwise_insertionSort _ _

end NeOs.Library

import NeOs.Library.Comparator

/-! Merge sort by halves, for a comparison that is proper on the elements at hand: it returns a
sorted permutation, and elements that compare equal keep their order. -/
namespace NeOs.Library
variable {α β : Type*}

/-- `a` may stand before `b`. -/
def notAfter (cmp : α → α → ℤ) (a b : α) : Bool := cmp a b ≤ 0

/-- Sort the two halves, then merge them; of equal elements the left one comes first. -/
def mergeHalves (cmp : α → α → ℤ) (xs : List α) : List α :=
  if xs.length ≤ 1 then xs
  else
    List.merge (mergeHalves cmp (xs.take (xs.length/2))) (mergeHalves cmp (xs.drop (xs.length/2)))
      (notAfter cmp)
  termination_by xs.length
  decreasing_by
    · rw [List.length_take]
      omega
    · rw [List.length_drop]
      omega

/-- The elements that tie with `a`. -/
def ties (cmp : α → α → ℤ) (a b : α) : Bool := cmp a b=0

/-- A comparison that is proper on some elements agrees on them with a total preorder. -/
theorem IsComparator.exists_total {cmp : α → α → ℤ} {xs : List α} (h : IsComparator cmp xs) :
    ∃ le : α → α → Bool, (∀ a b, le a b || le b a) ∧ (∀ a b c, le a b → le b c → le a c) ∧
      ∀ a ∈ xs, ∀ b ∈ xs, notAfter cmp a b=le a b := by
  classical
  refine ⟨fun a b => b ∉ xs ∨ (a ∈ xs ∧ cmp a b ≤ 0),?_,?_,?_⟩
  · intro a b
    simp only [Bool.or_eq_true,decide_eq_true_eq]
    by_cases ha : a ∈ xs
    · by_cases hb : b ∈ xs
      · have hs := h.sign a ha b hb
        have hs' := h.sign b hb a ha
        simp only [ha,hb,not_true_eq_false,true_and,false_or]
        omega
      · exact Or.inl (Or.inl hb)
    · exact Or.inr (Or.inl ha)
  · intro a b c
    simp only [decide_eq_true_eq]
    rintro hab (hc | ⟨hb,hbc⟩)
    · exact Or.inl hc
    · rcases hab with hb' | ⟨ha,hab⟩
      · exact absurd hb hb'
      · by_cases hc : c ∈ xs
        · exact Or.inr ⟨ha,h.trans a ha b hb c hc hab hbc⟩
        · exact Or.inl hc
  · intro a ha b hb
    simp [notAfter,ha,hb]

theorem IsComparator.of_subset {cmp : α → α → ℤ} {xs ys : List α} (h : IsComparator cmp xs)
    (hs : ∀ a ∈ ys, a ∈ xs) : IsComparator cmp ys :=
  ⟨fun a ha b hb => h.sign a (hs a ha) b (hs b hb),
    fun a ha b hb c hc => h.trans a (hs a ha) b (hs b hb) c (hs c hc)⟩

/-- Merging two sorted lists. -/
theorem pairwise_merge_of {cmp : α → α → ℤ} {xs ys : List α} (h : IsComparator cmp (xs++ys))
    (hx : xs.Pairwise fun a b => cmp a b ≤ 0) (hy : ys.Pairwise fun a b => cmp a b ≤ 0) :
    (List.merge xs ys (notAfter cmp)).Pairwise fun a b => cmp a b ≤ 0 := by
  obtain ⟨le,htotal,htrans,hagree⟩ := h.exists_total
  have hle : ∀ a ∈ xs++ys, ∀ b ∈ xs++ys, cmp a b ≤ 0 ↔ le a b=true := by
    intro a ha b hb
    rw [← hagree a ha b hb,notAfter,decide_eq_true_eq]
  have hmem : ∀ a ∈ List.merge xs ys le, a ∈ xs++ys := fun a ha =>
    List.mem_append.mpr (List.mem_merge.mp ha)
  have hsame : List.merge xs ys (notAfter cmp)=List.merge xs ys le := by
    have hmap := @List.map_merge α α id (notAfter cmp) le xs ys (by
      intro a ha b hb
      exact hagree a (List.mem_append_left _ ha) b (List.mem_append_right _ hb))
    simpa using hmap
  rw [hsame]
  have hpair := List.pairwise_merge htrans htotal xs ys
    (hx.imp_of_mem fun ha hb hab =>
      (hle _ (List.mem_append_left _ ha) _ (List.mem_append_left _ hb)).mp hab)
    (hy.imp_of_mem fun ha hb hab =>
      (hle _ (List.mem_append_right _ ha) _ (List.mem_append_right _ hb)).mp hab)
  exact hpair.imp_of_mem fun ha hb hab => (hle _ (hmem _ ha) _ (hmem _ hb)).mpr hab

/-- Of the elements that tie with `a`, merging puts those of the left list first. -/
theorem filter_ties_merge {cmp : α → α → ℤ} {zs : List α} (h : IsComparator cmp zs) {a : α}
    (ha : a ∈ zs) {xs ys : List α} (hxs : ∀ x ∈ xs, x ∈ zs) (hys : ∀ y ∈ ys, y ∈ zs)
    (hsorted : xs.Pairwise fun a b => cmp a b ≤ 0) :
    (List.merge xs ys (notAfter cmp)).filter (ties cmp a)=
      xs.filter (ties cmp a)++ys.filter (ties cmp a) := by
  induction xs generalizing ys with
  | nil => simp
  | cons x xs ihx =>
    induction ys with
    | nil => simp
    | cons y ys ihy =>
      by_cases hxy : notAfter cmp x y=true
      · rw [List.cons_merge_cons_pos _ _ _ hxy,List.filter_cons,
          ihx (fun z hz => hxs z (by simp [hz])) hys hsorted.tail,List.filter_cons (x := x)]
        split_ifs <;> rfl
      · rw [List.cons_merge_cons_neg _ _ _ hxy,List.filter_cons,
          ihy fun z hz => hys z (by simp [hz])]
        by_cases hy : ties cmp a y=true
        · -- what ties with `a` and `y` is not in the left list, whose elements come after `y`
          have hnone : (x::xs).filter (ties cmp a)=[] := by
            rw [List.filter_eq_nil_iff]
            intro z hz hza
            have hzmem := hxs z hz
            have hxmem := hxs x (by simp)
            have hymem := hys y (by simp)
            simp only [ties,decide_eq_true_eq] at hy hza
            have hza' : cmp z a ≤ 0 := (h.sign z hzmem a ha).mpr (by omega)
            have hzy := h.trans z hzmem a ha y hymem hza' (by omega)
            have hxz : cmp x z ≤ 0 := by
              rcases List.mem_cons.mp hz with rfl | hz
              · have hs := h.sign z hzmem z hzmem
                omega
              · exact List.rel_of_pairwise_cons hsorted hz
            have hxy' := h.trans x hxmem z hzmem y hymem hxz hzy
            exact hxy (by simpa [notAfter] using hxy')
          rw [hnone,List.filter_cons,if_pos hy]
          simp [hy]
        · rw [List.filter_cons (x := y),if_neg hy,if_neg hy]

theorem mergeHalves_of_length {cmp : α → α → ℤ} {xs : List α} (h : xs.length ≤ 1) :
    mergeHalves cmp xs=xs := by
  rw [mergeHalves,if_pos h]

theorem mergeHalves_append {cmp : α → α → ℤ} {xs ys : List α} (hx : xs.length=(xs.length+ys.length)/2)
    (h : 1 < xs.length+ys.length) :
    mergeHalves cmp (xs++ys)=
      List.merge (mergeHalves cmp xs) (mergeHalves cmp ys) (notAfter cmp) := by
  rw [mergeHalves,if_neg (by rw [List.length_append]; omega),List.length_append,← hx,
    List.take_left,List.drop_left]

/-- The two halves of a list. -/
theorem exists_halves (xs : List α) :
    ∃ ys zs, xs=ys++zs ∧ ys.length=(ys.length+zs.length)/2 := by
  refine ⟨xs.take (xs.length/2),xs.drop (xs.length/2),(List.take_append_drop _ xs).symm,?_⟩
  simp only [List.length_take,List.length_drop]
  omega

/-- Induction along the recursion of merge sort. -/
theorem halves_induction {P : List α → Prop} (short : ∀ xs, xs.length ≤ 1 → P xs)
    (halves : ∀ xs ys, xs.length=(xs.length+ys.length)/2 → 1 < xs.length+ys.length →
      P xs → P ys → P (xs++ys)) (xs : List α) : P xs := by
  induction hn : xs.length using Nat.strong_induction_on generalizing xs with
  | h n ih =>
    by_cases hshort : xs.length ≤ 1
    · exact short xs hshort
    · obtain ⟨ys,zs,rfl,hhalf⟩ := exists_halves xs
      rw [List.length_append] at hn hshort
      exact halves ys zs hhalf (by omega) (ih ys.length (by omega) ys rfl)
        (ih zs.length (by omega) zs rfl)

theorem mergeHalves_perm (cmp : α → α → ℤ) (xs : List α) : (mergeHalves cmp xs).Perm xs := by
  induction xs using halves_induction with
  | short xs h => rw [mergeHalves_of_length h]
  | halves xs ys hhalf hlen hx hy =>
    rw [mergeHalves_append hhalf hlen]
    exact (List.merge_perm_append (notAfter cmp)).trans (hx.append hy)

theorem pairwise_mergeHalves {cmp : α → α → ℤ} {xs : List α} (h : IsComparator cmp xs) :
    (mergeHalves cmp xs).Pairwise fun a b => cmp a b ≤ 0 := by
  induction xs using halves_induction with
  | short xs hlen =>
    rw [mergeHalves_of_length hlen]
    match xs,hlen with
    | [],_ => exact List.Pairwise.nil
    | [x],_ => exact List.pairwise_singleton _ _
  | halves xs ys hhalf hlen hx hy =>
    rw [mergeHalves_append hhalf hlen]
    have hperm := (mergeHalves_perm cmp xs).append (mergeHalves_perm cmp ys)
    apply pairwise_merge_of (h.of_subset fun a ha => hperm.mem_iff.mp ha)
    · exact hx (h.of_subset fun a ha => List.mem_append_left _ ha)
    · exact hy (h.of_subset fun a ha => List.mem_append_right _ ha)

/-- Elements that tie keep their order. -/
theorem filter_ties_mergeHalves {cmp : α → α → ℤ} {zs : List α} (h : IsComparator cmp zs) {a : α}
    (ha : a ∈ zs) {xs : List α} (hxs : ∀ x ∈ xs, x ∈ zs) :
    (mergeHalves cmp xs).filter (ties cmp a)=xs.filter (ties cmp a) := by
  induction xs using halves_induction with
  | short xs hlen => rw [mergeHalves_of_length hlen]
  | halves xs ys hhalf hlen hx hy =>
    have hxs' : ∀ x ∈ xs, x ∈ zs := fun x hm => hxs x (List.mem_append_left _ hm)
    have hys' : ∀ y ∈ ys, y ∈ zs := fun y hm => hxs y (List.mem_append_right _ hm)
    rw [mergeHalves_append hhalf hlen,filter_ties_merge h ha,hx hxs',hy hys',List.filter_append]
    · exact fun x hm => hxs' x ((mergeHalves_perm cmp xs).mem_iff.mp hm)
    · exact fun y hm => hys' y ((mergeHalves_perm cmp ys).mem_iff.mp hm)
    · exact pairwise_mergeHalves (h.of_subset hxs')

/-- Sorting indices by what they stand for is sorting what they stand for. -/
theorem map_mergeHalves {cmp : β → β → ℤ} (f : α → β) (xs : List α) :
    (mergeHalves (fun a b => cmp (f a) (f b)) xs).map f=mergeHalves cmp (xs.map f) := by
  induction xs using halves_induction with
  | short xs hlen => rw [mergeHalves_of_length hlen,mergeHalves_of_length (by simpa using hlen)]
  | halves xs ys hhalf hlen hx hy =>
    rw [mergeHalves_append hhalf hlen,List.map_append,
      mergeHalves_append (by simpa using hhalf) (by simpa using hlen),← hx,← hy]
    apply List.map_merge
    intro a _ b _
    rfl

end NeOs.Library

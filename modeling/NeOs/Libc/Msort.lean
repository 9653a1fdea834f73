import NeOs.Library.Cells
import NeOs.Library.MergeSort

/-! `msort_with_tmp` of `glibc-2.43/stdlib/qsort.c`. Array and buffer lie in one memory, a cell of
which holds one element; the variants of the merging loop differ only in how they copy it. -/
namespace NeOs
open Library Cells
namespace Libc
variable {α : Type*}

/-- The variables of the merging loop. -/
structure Merging (α : Type*) where
  mem : ℕ → α
  b1 : ℕ
  n1 : ℕ
  b2 : ℕ
  n2 : ℕ
  tmp : ℕ

/-- Move the first element of the left run to the buffer. -/
def Merging.takeLeft (s : Merging α) : Merging α :=
  { s with
    mem := Function.update s.mem s.tmp (s.mem s.b1), b1 := s.b1+1, n1 := s.n1-1, tmp := s.tmp+1 }

/-- Move the first element of the right run to the buffer. -/
def Merging.takeRight (s : Merging α) : Merging α :=
  { s with
    mem := Function.update s.mem s.tmp (s.mem s.b2), b2 := s.b2+1, n2 := s.n2-1, tmp := s.tmp+1 }

/-- The merging loop of `msort_with_tmp`. -/
def mergeLoop (cmp : α → α → ℤ) (s : Merging α) : Merging α :=
  if 0 < s.n1 ∧ 0 < s.n2 then
    if cmp (s.mem s.b1) (s.mem s.b2) ≤ 0 then mergeLoop cmp s.takeLeft
    else mergeLoop cmp s.takeRight
  else s
  termination_by s.n1+s.n2
  decreasing_by
    · simp only [Merging.takeLeft]
      omega
    · simp only [Merging.takeRight]
      omega

/-- Bring the remainder of the left run behind the merged elements, then all of them back. The
remainder of the right run is in its place already. -/
def copyBack (s : Merging α) (t b n : ℕ) : ℕ → α :=
  let mem := if 0 < s.n1 then copy s.mem s.tmp s.mem s.b1 s.n1 else s.mem
  copy mem b mem t (n-s.n2)

/-- `msort_with_tmp`: sort the `n` elements from `b` on with the buffer at `t`. -/
def msortWithTmp (cmp : α → α → ℤ) (t b n : ℕ) (mem : ℕ → α) : ℕ → α :=
  if n ≤ 1 then mem
  else
    let n1 := n/2
    let n2 := n-n1
    let mem := msortWithTmp cmp t b n1 mem
    let mem := msortWithTmp cmp t (b+n1) n2 mem
    copyBack (mergeLoop cmp ⟨mem,b,n1,b+n1,n2,t⟩) t b n
  termination_by n
  decreasing_by all_goals omega

/-- Neither run of the loop meets the part of the buffer still to be written. -/
def Merging.Apart (s : Merging α) : Prop :=
  ∀ i, s.tmp ≤ i → i < s.tmp+s.n1+s.n2 →
    (i < s.b1 ∨ s.b1+s.n1 ≤ i) ∧ (i < s.b2 ∨ s.b2+s.n2 ≤ i)

/-- The runs still to be merged, as lists. -/
def Merging.rest (cmp : α → α → ℤ) (s : Merging α) : List α :=
  List.merge (slice s.mem s.b1 s.n1) (slice s.mem s.b2 s.n2) (notAfter cmp)

/-- What the merging loop does from `s` to `s'`. -/
structure Merged (cmp : α → α → ℤ) (s s' : Merging α) : Prop where
  rest : slice s'.mem s.tmp (s'.tmp-s.tmp)++(slice s.mem s'.b1 s'.n1++slice s.mem s'.b2 s'.n2)=
    s.rest cmp
  count : s'.tmp+s'.n1+s'.n2=s.tmp+s.n1+s.n2
  from_tmp : s.tmp ≤ s'.tmp
  left_end : s'.b1+s'.n1=s.b1+s.n1
  right_end : s'.b2+s'.n2=s.b2+s.n2
  from_left : s.b1 ≤ s'.b1
  from_right : s.b2 ≤ s'.b2
  done : s'.n1=0 ∨ s'.n2=0
  frame : ∀ i, i < s.tmp ∨ s'.tmp ≤ i → s'.mem i=s.mem i

/-- The loop is done when a run is empty. -/
theorem merged_self {cmp : α → α → ℤ} {s : Merging α} (h : ¬(0 < s.n1 ∧ 0 < s.n2)) :
    Merged cmp s s := by
  refine ⟨?_,rfl,le_rfl,rfl,rfl,le_rfl,le_rfl,by omega,fun _ _ => rfl⟩
  rw [Nat.sub_self,slice_zero,List.nil_append,Merging.rest]
  rcases (show s.n1=0 ∨ s.n2=0 by omega) with hn | hn
  · simp [hn]
  · simp [hn]

/-- A step of the loop that moves the element `a` to the buffer. -/
structure Takes (cmp : α → α → ℤ) (s u : Merging α) (a : α) : Prop where
  mem : u.mem=Function.update s.mem s.tmp a
  tmp : u.tmp=s.tmp+1
  count : u.n1+u.n2+1=s.n1+s.n2
  left_end : u.b1+u.n1=s.b1+s.n1
  right_end : u.b2+u.n2=s.b2+s.n2
  from_left : s.b1 ≤ u.b1
  from_right : s.b2 ≤ u.b2
  rest : s.rest cmp=
    a::List.merge (slice s.mem u.b1 u.n1) (slice s.mem u.b2 u.n2) (notAfter cmp)

theorem takes_left {cmp : α → α → ℤ} {s : Merging α} (h1 : 0 < s.n1) (h2 : 0 < s.n2)
    (h : cmp (s.mem s.b1) (s.mem s.b2) ≤ 0) : Takes cmp s s.takeLeft (s.mem s.b1) := by
  obtain ⟨n,hn⟩ := Nat.exists_eq_add_of_lt h1
  obtain ⟨k,hk⟩ := Nat.exists_eq_add_of_lt h2
  refine ⟨rfl,rfl,?_,?_,rfl,?_,le_rfl,?_⟩
  · simp only [Merging.takeLeft]
    omega
  · simp only [Merging.takeLeft]
    omega
  · exact Nat.le_succ _
  · simp only [Merging.rest,Merging.takeLeft,hn,hk,Nat.zero_add,slice_succ,Nat.add_sub_cancel]
    exact List.cons_merge_cons_pos _ _ _ (by simpa [notAfter] using h)

theorem takes_right {cmp : α → α → ℤ} {s : Merging α} (h1 : 0 < s.n1) (h2 : 0 < s.n2)
    (h : ¬cmp (s.mem s.b1) (s.mem s.b2) ≤ 0) : Takes cmp s s.takeRight (s.mem s.b2) := by
  obtain ⟨n,hn⟩ := Nat.exists_eq_add_of_lt h1
  obtain ⟨k,hk⟩ := Nat.exists_eq_add_of_lt h2
  refine ⟨rfl,rfl,?_,rfl,?_,le_rfl,?_,?_⟩
  · simp only [Merging.takeRight]
    omega
  · simp only [Merging.takeRight]
    omega
  · exact Nat.le_succ _
  · simp only [Merging.rest,Merging.takeRight,hn,hk,Nat.zero_add,slice_succ,Nat.add_sub_cancel]
    exact List.cons_merge_cons_neg _ _ _ (by simpa [notAfter] using h)

theorem Takes.apart {cmp : α → α → ℤ} {s u : Merging α} {a : α} (h : Takes cmp s u a)
    (hs : s.Apart) : u.Apart := by
  obtain ⟨-,ht,hc,hle,hre,hfl,hfr,-⟩ := h
  intro i hi hlt
  have := hs i (by omega) (by omega)
  omega

/-- What is left of a run is not touched by a step. -/
theorem Takes.slice_eq {cmp : α → α → ℤ} {s u : Merging α} {a : α} (h : Takes cmp s u a)
    (hs : s.Apart) {b n : ℕ} (hn : n=0 ∨ (s.b1 ≤ b ∧ b+n=s.b1+s.n1) ∨ (s.b2 ≤ b ∧ b+n=s.b2+s.n2)) :
    slice u.mem b n=slice s.mem b n := by
  rcases Nat.eq_zero_or_pos n with rfl | hpos
  · rfl
  · have hcount := h.count
    have hap := hs s.tmp le_rfl (by omega)
    rw [h.mem]
    exact slice_update_of_not_mem _ (by omega) _

theorem Takes.merged {cmp : α → α → ℤ} {s u s' : Merging α} {a : α} (h : Takes cmp s u a)
    (hs : s.Apart) (hm : Merged cmp u s') : Merged cmp s s' := by
  obtain ⟨hrest,hc,ht,hle,hre,hfl,hfr,hd,hf⟩ := hm
  have hcount := h.count
  have htmp := h.tmp
  have hl := h.left_end
  have hr := h.right_end
  have hl' := h.from_left
  have hr' := h.from_right
  refine ⟨?_,by omega,by omega,by omega,by omega,by omega,by omega,hd,?_⟩
  · have hhead : slice s'.mem s.tmp (s'.tmp-s.tmp)=a::slice s'.mem u.tmp (s'.tmp-u.tmp) := by
      rw [show s'.tmp-s.tmp=s'.tmp-u.tmp+1 by omega,slice_succ,hf s.tmp (by omega),h.mem,
        Function.update_self,htmp]
    rw [h.slice_eq hs (by omega),h.slice_eq hs (by omega),Merging.rest,h.slice_eq hs (by omega),
      h.slice_eq hs (by omega)] at hrest
    rw [hhead,h.rest,List.cons_append,hrest]
  · intro i hi
    rw [hf i (by omega),h.mem,Function.update_of_ne (by omega)]

/-- The merging loop. -/
theorem mergeLoop_spec (cmp : α → α → ℤ) (s : Merging α) (hs : s.Apart) :
    Merged cmp s (mergeLoop cmp s) := by
  induction s using mergeLoop.induct cmp with
  | case1 s h hcmp ih =>
    rw [mergeLoop,if_pos h,if_pos hcmp]
    have htake := takes_left h.1 h.2 hcmp
    exact htake.merged hs (ih (htake.apart hs))
  | case2 s h hcmp ih =>
    rw [mergeLoop,if_pos h,if_neg hcmp]
    have htake := takes_right h.1 h.2 hcmp
    exact htake.merged hs (ih (htake.apart hs))
  | case3 s h =>
    rw [mergeLoop,if_neg h]
    exact merged_self h

/-- The `n` cells from `b` on and the `k` cells from `t` on do not meet. -/
def Apart (b n t k : ℕ) : Prop := b+n ≤ t ∨ t+k ≤ b

/-- Both memories have the same contents outside the array at `b` and the buffer at `t`. -/
def SameOutside (t b n : ℕ) (mem mem' : ℕ → α) : Prop :=
  ∀ i, (i < b ∨ b+n ≤ i) → (i < t ∨ t+n ≤ i) → mem' i=mem i

section Halves
variable {cmp : α → α → ℤ} {t b n1 n2 : ℕ} {mem : ℕ → α} {s : Merging α}

theorem slice_merged_prefix (h : Merged cmp ⟨mem,b,n1,b+n1,n2,t⟩ s) :
    slice (if 0 < s.n1 then copy s.mem s.tmp s.mem s.b1 s.n1 else s.mem) t (s.tmp-t+s.n1)=
      slice s.mem t (s.tmp-t)++slice s.mem s.b1 s.n1 := by
  have ht := h.from_tmp
  simp only at ht
  split_ifs with hn
  · rw [slice_add,show t+(s.tmp-t)=s.tmp by omega,slice_copy]
    congr 1
    apply slice_congr
    intro i hi
    exact copy_of_lt _ _ (by omega)
  · rw [show s.n1=0 by omega,slice_zero,List.append_nil,Nat.add_zero]

theorem copyBack_spec (hapart : Apart b (n1+n2) t (n1+n2)) (h : Merged cmp ⟨mem,b,n1,b+n1,n2,t⟩ s) :
    slice (copyBack s t b (n1+n2)) b (n1+n2)=
      List.merge (slice mem b n1) (slice mem (b+n1) n2) (notAfter cmp) ∧
    SameOutside t b (n1+n2) mem (copyBack s t b (n1+n2)) := by
  have hprefix := slice_merged_prefix h
  obtain ⟨hrest,hc,ht,hle,hre,hfl,hfr,hd,hf⟩ := h
  simp only [Merging.rest] at hrest hc ht hle hre hfl hfr hf
  have hout : ∀ i, i < t ∨ t+(n1+n2) ≤ i →
      (if 0 < s.n1 then copy s.mem s.tmp s.mem s.b1 s.n1 else s.mem) i=mem i := by
    intro i hi
    split_ifs
    · rw [copy_of_lt _ _ (by omega),hf i (by omega)]
    · exact hf i (by omega)
  have hleft : slice s.mem s.b1 s.n1=slice mem s.b1 s.n1 := by
    apply slice_congr
    intro i hi
    exact hf _ (by rcases hapart with h | h <;> omega)
  unfold copyBack
  constructor
  · have hk : n1+n2-s.n2=s.tmp-t+s.n1 := by omega
    rw [← hrest,← hleft,← List.append_assoc,← hprefix,← hk]
    conv_lhs => rw [show n1+n2=n1+n2-s.n2+s.n2 by omega]
    rw [slice_add]
    congr 1
    · rw [Nat.sub_add_cancel (by omega),slice_copy]
    · rw [Nat.sub_add_cancel (by omega),show b+(n1+n2-s.n2)=s.b2 by omega]
      apply slice_congr
      intro i hi
      rw [copy_of_lt _ _ (by omega),hout _ (by rcases hapart with h | h <;> omega)]
  · intro i hb hi
    rw [copy_of_lt _ _ (by omega),hout i hi]

end Halves

theorem msortWithTmp_halves (cmp : α → α → ℤ) (t b : ℕ) {n1 n2 : ℕ} (hhalf : n1=(n1+n2)/2)
    (hn : 1 < n1+n2) (mem : ℕ → α) :
    msortWithTmp cmp t b (n1+n2) mem=
      copyBack (mergeLoop cmp
        ⟨msortWithTmp cmp t (b+n1) n2 (msortWithTmp cmp t b n1 mem),b,n1,b+n1,n2,t⟩) t b (n1+n2) := by
  rw [msortWithTmp,if_neg (by omega)]
  simp only [← hhalf,Nat.add_sub_cancel_left]

/-- `msort_with_tmp` sorts the array by halves and writes nothing but the array and `n` cells of
the buffer, whatever the comparison returns. -/
theorem msortWithTmp_spec (cmp : α → α → ℤ) {t b n : ℕ} (h : Apart b n t n) (mem : ℕ → α) :
    slice (msortWithTmp cmp t b n mem) b n=mergeHalves cmp (slice mem b n) ∧
      SameOutside t b n mem (msortWithTmp cmp t b n mem) := by
  induction n using Nat.strong_induction_on generalizing b mem with
  | h n ih =>
    by_cases hn : n ≤ 1
    · rw [msortWithTmp,if_pos hn,mergeHalves_of_length (by simpa using hn)]
      exact ⟨rfl,fun _ _ _ => rfl⟩
    · obtain ⟨n1,n2,rfl,hhalf⟩ : ∃ n1 n2, n=n1+n2 ∧ n1=(n1+n2)/2 := ⟨n/2,n-n/2,by omega,by omega⟩
      have hapart : b+(n1+n2) ≤ t ∨ t+(n1+n2) ≤ b := h
      rw [msortWithTmp_halves cmp t b hhalf (by omega)]
      obtain ⟨hs1,ho1⟩ := ih n1 (by omega) (b := b) (by unfold Apart; omega) mem
      set m1 := msortWithTmp cmp t b n1 mem
      obtain ⟨hs2,ho2⟩ := ih n2 (by omega) (b := b+n1) (by unfold Apart; omega) m1
      set m2 := msortWithTmp cmp t (b+n1) n2 m1
      have hkeep : slice m2 b n1=slice m1 b n1 := by
        apply slice_congr
        intro i hi
        exact ho2 _ (by omega) (by omega)
      have hright : slice m1 (b+n1) n2=slice mem (b+n1) n2 := by
        apply slice_congr
        intro i hi
        exact ho1 _ (by omega) (by omega)
      have hmerged := mergeLoop_spec cmp ⟨m2,b,n1,b+n1,n2,t⟩ (by
        intro i hi hlt
        simp only at hi hlt ⊢
        omega)
      obtain ⟨hs,ho⟩ := copyBack_spec h hmerged
      rw [slice_add mem,mergeHalves_append (by simpa using hhalf) (by simpa using hn),← hs1,← hright,
        ← hs2,← hkeep]
      refine ⟨hs,fun i hb ht => ?_⟩
      rw [ho i (by omega) (by omega),ho2 i (by omega) (by omega),ho1 i (by omega) (by omega)]

section Images
variable {β : Type*} (f : α → β) (cmp : β → β → ℤ)

/-- The same variables over images of the elements. -/
def Merging.image (s : Merging α) : Merging β := ⟨f ∘ s.mem,s.b1,s.n1,s.b2,s.n2,s.tmp⟩

theorem mergeLoop_image (s : Merging α) :
    (mergeLoop (fun a b => cmp (f a) (f b)) s).image f=mergeLoop cmp (s.image f) := by
  induction s using mergeLoop.induct fun a b => cmp (f a) (f b) with
  | case1 s h hcmp ih =>
    have htake : s.takeLeft.image f=(s.image f).takeLeft := by
      simp [Merging.image,Merging.takeLeft,Function.comp_update]
    rw [mergeLoop,if_pos h,if_pos hcmp,ih,htake,mergeLoop.eq_def cmp (s.image f)]
    exact ((if_pos h).trans (if_pos hcmp)).symm
  | case2 s h hcmp ih =>
    have htake : s.takeRight.image f=(s.image f).takeRight := by
      simp [Merging.image,Merging.takeRight,Function.comp_update]
    rw [mergeLoop,if_pos h,if_neg hcmp,ih,htake,mergeLoop.eq_def cmp (s.image f)]
    exact ((if_pos h).trans (if_neg hcmp)).symm
  | case3 s h =>
    rw [mergeLoop,if_neg h,mergeLoop]
    exact (if_neg h).symm

theorem copyBack_image (s : Merging α) (t b n : ℕ) :
    f ∘ copyBack s t b n=copyBack (s.image f) t b n := by
  have hrest : f ∘ (if 0 < s.n1 then copy s.mem s.tmp s.mem s.b1 s.n1 else s.mem)=
      if 0 < (s.image f).n1 then
        copy (s.image f).mem (s.image f).tmp (s.image f).mem (s.image f).b1 (s.image f).n1
      else (s.image f).mem := by
    by_cases hn : 0 < s.n1
    · rw [if_pos hn,comp_copy]
      exact (if_pos hn).symm
    · rw [if_neg hn]
      exact (if_neg hn).symm
  simp only [copyBack]
  rw [comp_copy,hrest]
  rfl

/-- Sorting by what elements stand for sorts what they stand for. -/
theorem msortWithTmp_comp (t b n : ℕ) (mem : ℕ → α) :
    f ∘ msortWithTmp (fun x y => cmp (f x) (f y)) t b n mem=msortWithTmp cmp t b n (f ∘ mem) := by
  induction n using Nat.strong_induction_on generalizing b mem with
  | h n ih =>
    by_cases hn : n ≤ 1
    · rw [msortWithTmp,if_pos hn,msortWithTmp,if_pos hn]
    · obtain ⟨n1,n2,rfl,hhalf⟩ : ∃ n1 n2, n=n1+n2 ∧ n1=(n1+n2)/2 := ⟨n/2,n-n/2,by omega,by omega⟩
      rw [msortWithTmp_halves _ t b hhalf (by omega),msortWithTmp_halves _ t b hhalf (by omega),
        copyBack_image,mergeLoop_image,← ih n1 (by omega),← ih n2 (by omega)]
      rfl

end Images

end Libc
end NeOs

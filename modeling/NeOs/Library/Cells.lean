import Mathlib

/-! Memory as a function of its cells. A cell holds one element, and an array is a range of
cells. -/
namespace NeOs.Library
namespace Cells
variable {α : Type*}

/-- The `n` elements from cell `b` on. -/
def slice (m : ℕ → α) (b n : ℕ) : List α := (List.range n).map fun i => m (b+i)

/-- Copy `n` cells from `src+s` to `dst+d`. -/
def copy (dst : ℕ → α) (d : ℕ) (src : ℕ → α) (s n : ℕ) : ℕ → α :=
  fun i => if d ≤ i ∧ i < d+n then src (s+(i-d)) else dst i

/-- Exchange two cells. -/
def swap (m : ℕ → α) (i j : ℕ) : ℕ → α := m ∘ Equiv.swap i j

variable {m m' : ℕ → α}

@[simp] theorem slice_zero (m : ℕ → α) (b : ℕ) : slice m b 0=[] := rfl

@[simp] theorem slice_length (m : ℕ → α) (b n : ℕ) : (slice m b n).length=n := by simp [slice]

theorem slice_succ (m : ℕ → α) (b n : ℕ) : slice m b (n+1)=m b::slice m (b+1) n := by
  rw [slice,List.range_succ_eq_map,List.map_cons,List.map_map,slice]
  congr 1
  apply List.map_congr_left
  intro i _
  simp only [Function.comp_apply]
  congr 1
  omega

theorem slice_add (m : ℕ → α) (b k n : ℕ) : slice m b (k+n)=slice m b k++slice m (b+k) n := by
  rw [slice,List.range_add,List.map_append,List.map_map,slice,slice]
  congr 1
  apply List.map_congr_left
  intro i _
  rw [Function.comp_apply,Nat.add_assoc]

theorem slice_congr {b b' n : ℕ} (h : ∀ i < n, m (b+i)=m' (b'+i)) :
    slice m b n=slice m' b' n := by
  apply List.map_congr_left
  intro i hi
  exact h i (List.mem_range.mp hi)

theorem mem_slice {b n : ℕ} {a : α} : a ∈ slice m b n ↔ ∃ i < n, m (b+i)=a := by
  simp [slice]

@[simp] theorem getElem?_slice (m : ℕ → α) (b n i : ℕ) :
    (slice m b n)[i]?=if i < n then some (m (b+i)) else none := by
  rw [slice,List.getElem?_map]
  split_ifs with h
  · simp [h]
  · rw [List.getElem?_eq_none (by simpa using h)]
    rfl

/-- A list stored from `b` on. -/
theorem slice_getD (x : α) (xs : List α) (b : ℕ) :
    slice (fun i => xs.getD (i-b) x) b xs.length=xs := by
  apply List.ext_getElem?
  intro i
  rw [getElem?_slice]
  split_ifs with h
  · rw [Nat.add_sub_cancel_left,List.getD_eq_getElem _ _ h,List.getElem?_eq_getElem h]
  · rw [List.getElem?_eq_none (by omega)]

theorem copy_of_lt (dst : ℕ → α) (src : ℕ → α) {d s n i : ℕ} (h : i < d ∨ d+n ≤ i) :
    copy dst d src s n i=dst i := if_neg (by omega)

theorem comp_copy {β : Type*} (f : α → β) (dst : ℕ → α) (d : ℕ) (src : ℕ → α) (s n : ℕ) :
    f ∘ copy dst d src s n=copy (f ∘ dst) d (f ∘ src) s n := by
  funext i
  exact apply_ite f _ _ _

theorem slice_copy (dst : ℕ → α) (d : ℕ) (src : ℕ → α) (s n : ℕ) :
    slice (copy dst d src s n) d n=slice src s n := by
  apply slice_congr
  intro i hi
  rw [copy,if_pos (by omega)]
  congr 1
  omega

/-- Writing `k` cells one after another. -/
theorem foldl_update (f : ℕ → α) (m : ℕ → α) (b k a : ℕ) :
    (List.range k).foldl (fun m i => Function.update m (b+i) (f i)) m a=
      if b ≤ a ∧ a < b+k then f (a-b) else m a := by
  induction k with
  | zero => simp
  | succ k ih =>
    rw [List.range_succ,List.foldl_append,List.foldl_cons,List.foldl_nil]
    by_cases ha : a=b+k
    · rw [ha,Function.update_self,if_pos (by omega),Nat.add_sub_cancel_left]
    · rw [Function.update_of_ne ha,ih]
      split_ifs <;> first | rfl | omega

/-- Writing a cell outside an array leaves it as it is. -/
theorem slice_update_of_not_mem (m : ℕ → α) {b n i : ℕ} (h : i < b ∨ b+n ≤ i) (a : α) :
    slice (Function.update m i a) b n=slice m b n := by
  apply slice_congr
  intro j hj
  exact Function.update_of_ne (show b+j≠i by omega) a m

@[simp] theorem swap_left (m : ℕ → α) (i j : ℕ) : swap m i j i=m j := by simp [swap]

@[simp] theorem swap_right (m : ℕ → α) (i j : ℕ) : swap m i j j=m i := by simp [swap]

theorem swap_of_ne (m : ℕ → α) {i j k : ℕ} (hi : k≠i) (hj : k≠j) : swap m i j k=m k := by
  simp [swap,Equiv.swap_apply_of_ne_of_ne hi hj]

theorem swap_shift (m : ℕ → α) (b i j : ℕ) :
    (fun k => swap m (b+i) (b+j) (b+k))=swap (fun k => m (b+k)) i j := by
  funext k
  by_cases hi : k=i
  · rw [hi,swap_left,swap_left]
  · by_cases hj : k=j
    · rw [hj,swap_right,swap_right]
    · rw [swap_of_ne _ hi hj,swap_of_ne _ (by omega) (by omega)]

/-- A property of all pairs of an array, in order. -/
theorem pairwise_slice {r : α → α → Prop} {b n : ℕ} :
    (slice m b n).Pairwise r ↔ ∀ i j, i < j → j < n → r (m (b+i)) (m (b+j)) := by
  rw [List.pairwise_iff_getElem]
  simp only [slice,List.length_map,List.length_range,List.getElem_map,List.getElem_range]
  exact ⟨fun h i j hij hj => h i j (hij.trans hj) hj hij,fun h i j _ hj hij => h i j hij hj⟩

/-- `m'` has the cells of the array at `b` in another order and is `m` elsewhere. -/
def Rearranged (b n : ℕ) (m m' : ℕ → α) : Prop :=
  ∃ σ : Equiv.Perm ℕ, (∀ i, i < b ∨ b+n ≤ i → σ i=i) ∧ m'=m ∘ σ

namespace Rearranged
variable {m'' : ℕ → α} {b n : ℕ}

theorem refl (b n : ℕ) (m : ℕ → α) : Rearranged b n m m := ⟨1,fun _ _ => rfl,rfl⟩

theorem trans (h : Rearranged b n m m') (h' : Rearranged b n m' m'') : Rearranged b n m m'' := by
  obtain ⟨σ,hσ,rfl⟩ := h
  obtain ⟨τ,hτ,rfl⟩ := h'
  refine ⟨σ*τ,fun i hi => ?_,rfl⟩
  rw [Equiv.Perm.mul_apply,hτ i hi,hσ i hi]

theorem mono (h : Rearranged b n m m') {n' : ℕ} (hn : n ≤ n') : Rearranged b n' m m' := by
  obtain ⟨σ,hσ,rfl⟩ := h
  exact ⟨σ,fun i hi => hσ i (by omega),rfl⟩

theorem of_swap (m : ℕ → α) {i j : ℕ} (hi : i < n) (hj : j < n) :
    Rearranged b n m (swap m (b+i) (b+j)) :=
  ⟨Equiv.swap (b+i) (b+j),
    fun _ hk => Equiv.swap_apply_of_ne_of_ne (by omega) (by omega),rfl⟩

theorem outside (h : Rearranged b n m m') {i : ℕ} (hi : i < b ∨ b+n ≤ i) : m' i=m i := by
  obtain ⟨σ,hσ,rfl⟩ := h
  rw [Function.comp_apply,hσ i hi]

/-- Every cell of the array now holds what some cell of it held. -/
theorem inside (h : Rearranged b n m m') {i : ℕ} (hi : i < n) : ∃ j < n, m' (b+i)=m (b+j) := by
  obtain ⟨σ,hσ,rfl⟩ := h
  have hin : ¬(σ (b+i) < b ∨ b+n ≤ σ (b+i)) := by
    intro hout
    have := σ.injective (hσ _ hout)
    omega
  refine ⟨σ (b+i)-b,by omega,?_⟩
  rw [Function.comp_apply,Nat.add_sub_cancel' (by omega)]

theorem perm (h : Rearranged b n m m') : (slice m' b n).Perm (slice m b n) := by
  obtain ⟨σ,hσ,rfl⟩ := h
  have hmap : ∀ f : ℕ → α, slice f b n=((List.range n).map (b+·)).map f := by
    intro f
    rw [List.map_map]
    rfl
  have hnodup : ((List.range n).map (b+·)).Nodup := List.nodup_range.map (add_right_injective b)
  have hcells : (((List.range n).map (b+·)).map σ).Perm ((List.range n).map (b+·)) := by
    apply (List.perm_ext_iff_of_nodup (hnodup.map σ.injective) hnodup).mpr
    have hmem : ∀ k, k ∈ (List.range n).map (b+·) ↔ ¬(k < b ∨ b+n ≤ k) := by
      intro k
      rw [List.mem_map]
      constructor
      · rintro ⟨i,hi,rfl⟩
        have := List.mem_range.mp hi
        omega
      · intro hk
        exact ⟨k-b,List.mem_range.mpr (by omega),by omega⟩
    intro k
    rw [hmem,List.mem_map]
    constructor
    · rintro ⟨i,hi,rfl⟩ hout
      exact (hmem i).mp hi (σ.injective (hσ _ hout) ▸ hout)
    · intro hk
      refine ⟨σ.symm k,(hmem _).mpr fun hout => hk ?_,σ.apply_symm_apply k⟩
      have := hσ _ hout
      rw [σ.apply_symm_apply] at this
      exact this ▸ hout
  rw [hmap,hmap,← List.map_map]
  exact hcells.map m

end Rearranged
end Cells
end NeOs.Library

import Mathlib

/-! Rectangles of `m` rows and `n` columns, numbered row by row or column by column. -/
namespace NeOs.Library
namespace Grid
variable {α : Type*}

/-- The numbers of a rectangle, row by row. -/
theorem range_mul (m n : ℕ) :
    List.range (m*n)=(List.range m).flatMap fun r => (List.range n).map fun c => r*n+c := by
  induction m with
  | zero => simp
  | succ m ih =>
    rw [Nat.add_mul,Nat.one_mul,List.range_add,ih,List.range_succ,List.flatMap_append]
    simp

/-- A rectangle filled row by row, seen through row and column. -/
theorem flatMap_range_mul (m n : ℕ) (f : ℕ → List α) :
    (List.range (m*n)).flatMap f=
      (List.range m).flatMap fun r => (List.range n).flatMap fun c => f (r*n+c) := by
  rw [range_mul,List.flatMap_assoc]
  simp only [List.flatMap_map]

/-- What stands behind the last cell of a row stands behind the row. -/
theorem flatMap_range_last (f : ℕ → List α) (last : List α) {n : ℕ} (hn : 1 ≤ n) :
    ((List.range n).flatMap fun c => f c++if c=n-1 then last else [])=
      (List.range n).flatMap f++last := by
  obtain ⟨n,rfl⟩ := Nat.exists_eq_add_of_le' hn
  have hinner : ((List.range n).flatMap fun c => f c++if c=n+1-1 then last else [])=
      (List.range n).flatMap f := by
    apply List.flatMap_congr
    intro c hc
    rw [if_neg (by have := List.mem_range.mp hc; omega),List.append_nil]
  rw [List.range_succ,List.flatMap_append,hinner,List.flatMap_append]
  simp

theorem div_of_cell {n r c : ℕ} (hc : c < n) : (r*n+c)/n=r := by
  rw [Nat.mul_comm,Nat.mul_add_div (by omega),Nat.div_eq_of_lt hc,Nat.add_zero]

theorem mod_of_cell {n r c : ℕ} (hc : c < n) : (r*n+c)%n=c := by
  rw [Nat.mul_comm,Nat.mul_add_mod,Nat.mod_eq_of_lt hc]

/-- A cell number is in range. -/
theorem cell_lt {m n r c : ℕ} (hr : r < m) (hc : c < n) : r*n+c < m*n := by
  calc r*n+c < r*n+n := by omega
    _ = (r+1)*n := by ring
    _ ≤ m*n := Nat.mul_le_mul_right n hr

/-- The number of rows that `count` elements need in `n` columns. -/
theorem le_ceilDiv_mul {count n : ℕ} (hn : 1 ≤ n) : count ≤ n*((count+n-1)/n) := by
  have h := Nat.div_add_mod (count+n-1) n
  have hlt := Nat.mod_lt (count+n-1) hn
  omega

theorem one_le_ceilDiv {count n : ℕ} (hn : 1 ≤ n) (hc : 1 ≤ count) : 1 ≤ (count+n-1)/n :=
  (Nat.one_le_div_iff hn).mpr (by omega)

/-- Cells numbered column by column. -/
theorem range_mul_columns (m n : ℕ) :
    List.range (n*m)=(List.range n).flatMap fun c => (List.range m).map fun r => m*c+r := by
  rw [range_mul]
  simp only [Nat.mul_comm]

/-- The largest value in column `c`, for the first `k` cells numbered by columns of height `m`. -/
def columnMax (f : ℕ → ℕ) (m k c : ℕ) : ℕ := ((Finset.range k).filter fun i => i/m=c).sup f

theorem columnMax_succ (f : ℕ → ℕ) (m k c : ℕ) :
    columnMax f m (k+1) c=
      if k/m=c then max (columnMax f m k c) (f k) else columnMax f m k c := by
  unfold columnMax
  rw [Finset.range_add_one,Finset.filter_insert]
  split_ifs
  · rw [Finset.sup_insert,max_comm]
  · rfl

/-- One step of the scan that keeps the maxima of all the columns in a list. -/
theorem set_columnMax (f : ℕ → ℕ) (m n k : ℕ) :
    ((List.range n).map (columnMax f m k)).set (k/m) (max (columnMax f m k (k/m)) (f k))=
      (List.range n).map (columnMax f m (k+1)) := by
  apply List.ext_getElem (by simp)
  intro c _ _
  simp only [List.getElem_set,List.getElem_map,List.getElem_range,columnMax_succ]
  split_ifs with h
  · rw [h]
  · rfl

/-- A complete column. -/
theorem columnMax_eq (f : ℕ → ℕ) {m n c : ℕ} (hc : c < n) :
    columnMax f m (n*m) c=(Finset.range m).sup fun r => f (m*c+r) := by
  have hcells : ((Finset.range (n*m)).filter fun i => i/m=c)=
      (Finset.range m).image fun r => m*c+r := by
    ext i
    simp only [Finset.mem_filter,Finset.mem_range,Finset.mem_image]
    constructor
    · rintro ⟨hi,rfl⟩
      have hm : 0 < m := Nat.pos_of_mul_pos_left (Nat.zero_lt_of_lt hi)
      exact ⟨i%m,Nat.mod_lt i hm,Nat.div_add_mod i m⟩
    · rintro ⟨r,hr,rfl⟩
      rw [Nat.mul_comm]
      exact ⟨cell_lt hc hr,div_of_cell hr⟩
  rw [columnMax,hcells,Finset.sup_image]
  rfl

end Grid
end NeOs.Library

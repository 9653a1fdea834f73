import Mathlib

/-! The schedule of a counter that doubles its bound whenever it is full. -/
namespace NeOs.Library
namespace Doubling

/-- How often a bound that starts at `c` has been doubled by the time `n` elements are in. -/
def doublings (c : ℕ) : ℕ → ℕ
  | 0 => 0
  | n+1 => if n=c*2^doublings c n then doublings c n+1 else doublings c n

@[simp] theorem doublings_zero (c : ℕ) : doublings c 0=0 := rfl

/-- The number of doublings is the least one whose bound holds all the elements. -/
theorem le_mul_pow_iff {c : ℕ} (hc : 1≤c) (n k : ℕ) : n≤c*2^k ↔ doublings c n≤k := by
  induction n generalizing k with
  | zero => simp
  | succ n ih =>
    have hself := (ih (doublings c n)).mpr le_rfl
    simp only [doublings]
    split_ifs with h
    · rw [Nat.succ_le_iff,Nat.succ_le_iff]
      constructor
      · intro hn
        by_contra hk
        have hmono : c*2^k≤c*2^doublings c n :=
          Nat.mul_le_mul_left c (Nat.pow_le_pow_right (by norm_num) (by omega))
        omega
      · intro hk
        have hmono : 2^doublings c n<2^k := Nat.pow_lt_pow_right (by norm_num) hk
        calc n = c*2^doublings c n := h
          _ < c*2^k := Nat.mul_lt_mul_of_pos_left hmono hc
    · rw [← ih]
      constructor
      · omega
      · intro hn
        have hmono : c*2^doublings c n≤c*2^k :=
          Nat.mul_le_mul_left c (Nat.pow_le_pow_right (by norm_num) ((ih k).mp hn))
        omega

theorem le_bound {c : ℕ} (hc : 1≤c) (n : ℕ) : n≤c*2^doublings c n :=
  (le_mul_pow_iff hc n _).mpr le_rfl

theorem doublings_mono {c : ℕ} (hc : 1≤c) {m n : ℕ} (h : m≤n) : doublings c m≤doublings c n :=
  (le_mul_pow_iff hc m _).mp (h.trans (le_bound hc n))

/-- No bound of the schedule that holds `n` elements is smaller than the one reached for them. -/
theorem bound_le {c : ℕ} (hc : 1≤c) {n k : ℕ} (h : n≤c*2^k) : c*2^doublings c n≤c*2^k :=
  Nat.mul_le_mul_left c (Nat.pow_le_pow_right (by norm_num) ((le_mul_pow_iff hc n k).mp h))

theorem bound_mono {c : ℕ} (hc : 1≤c) {m n : ℕ} (h : m≤n) :
    c*2^doublings c m≤c*2^doublings c n :=
  bound_le hc (h.trans (le_bound hc n))

theorem bound_pos {c : ℕ} (hc : 1≤c) (n : ℕ) : 1≤c*2^doublings c n :=
  Nat.mul_pos hc (Nat.pow_pos (by norm_num))

/-- The bound is doubled by element `n+1` exactly when `n` is the initial bound times a power
of two. -/
theorem full_iff {c : ℕ} (hc : 1≤c) (n : ℕ) : n=c*2^doublings c n ↔ ∃ j, n=c*2^j := by
  constructor
  · exact fun h => ⟨_,h⟩
  · rintro ⟨j,rfl⟩
    exact le_antisymm (le_bound hc _) (bound_le hc le_rfl)

/-- A bound that has been doubled is less than twice what it holds. -/
theorem bound_le_max {c : ℕ} (hc : 1≤c) (n : ℕ) : c*2^doublings c n ≤ max c (2*n) := by
  cases hd : doublings c n with
  | zero => simp
  | succ k =>
    have hk : ¬n≤c*2^k := by
      rw [le_mul_pow_iff hc]
      omega
    have hdouble : c*2^(k+1)=2*(c*2^k) := by ring
    omega

/-- Some full bound lies between the two counts. -/
def Crossed (c m n : ℕ) : Prop := ∃ j, m≤c*2^j ∧ c*2^j<n

/-- Two counts have the same number of doublings behind them exactly when no full bound lies
between them. -/
theorem doublings_eq_iff {c : ℕ} (hc : 1≤c) {m n : ℕ} (h : m≤n) :
    doublings c m=doublings c n ↔ ¬Crossed c m n := by
  constructor
  · rintro he ⟨j,hm,hn⟩
    have hd := (le_mul_pow_iff hc m j).mp hm
    rw [he] at hd
    have := (le_mul_pow_iff hc n j).mpr hd
    omega
  · intro hj
    apply le_antisymm (doublings_mono hc h)
    rw [← le_mul_pow_iff hc]
    by_contra hn
    exact hj ⟨doublings c m,le_bound hc m,by omega⟩

end Doubling
end NeOs.Library

import NeOs.Libc.Heapsort
import NeOs.Libc.InBytes.Swap

/-! `heapsort_r` of `glibc-2.43/stdlib/qsort.c` on the bytes of memory. It does what the model on
cells does, whichever way it swaps the elements. -/
namespace NeOs
open Library Cells
namespace Libc
namespace InBytes

/-- The comparison function is given two pointers, and reads the memory. -/
abbrev Compare := Memory → ℕ → ℕ → ℤ

/-- A comparison of the contents of elements. -/
def pointed (size : ℕ) (cmp : List UInt8 → List UInt8 → ℤ) : Compare := fun mem p q =>
  cmp (slice mem p size) (slice mem q size)

/-- The child that `siftdown` compares with. -/
def largerChild (cmp : Compare) (base size k n : ℕ) (mem : Memory) : ℕ :=
  let j := 2*k+1
  if j < n ∧ cmp mem (base+j*size) (base+(j+1)*size) < 0 then j+1 else j

theorem largerChild_range (cmp : Compare) (base size : ℕ) {k n : ℕ} (mem : Memory) (h : 2*k+1 ≤ n) :
    2*k+1 ≤ largerChild cmp base size k n mem ∧ largerChild cmp base size k n mem ≤ n := by
  unfold largerChild
  simp only
  split_ifs <;> omega

/-- `siftdown` -/
def siftdown (cmp : Compare) (swapType : SwapType) (base size k n : ℕ) (mem : Memory) : Memory :=
  if 2*k+1 ≤ n then
    let j := largerChild cmp base size k n mem
    if j=k ∨ 0 ≤ cmp mem (base+k*size) (base+j*size) then mem
    else siftdown cmp swapType base size j n (doSwap (base+size*j) (base+k*size) size swapType mem)
  else mem
  termination_by n-k
  decreasing_by
    have := largerChild_range cmp base size mem ‹2*k+1 ≤ n›
    omega

/-- The loop of `heapify`. -/
def heapifyLoop (cmp : Compare) (swapType : SwapType) (base size n : ℕ) : ℕ → Memory → Memory
  | 0,mem => siftdown cmp swapType base size 0 n mem
  | k+1,mem =>
    heapifyLoop cmp swapType base size n k (siftdown cmp swapType base size (k+1) n mem)

/-- `heapify` -/
def heapify (cmp : Compare) (swapType : SwapType) (base size n : ℕ) (mem : Memory) : Memory :=
  heapifyLoop cmp swapType base size n (n/2) mem

/-- The loop of `heapsort_r`. -/
def heapsortLoop (cmp : Compare) (swapType : SwapType) (base size : ℕ) : ℕ → Memory → Memory
  | 0,mem => mem
  | n+1,mem =>
    let mem := doSwap base (base+(n+1)*size) size swapType mem
    if n=0 then mem
    else heapsortLoop cmp swapType base size n (siftdown cmp swapType base size 0 n mem)

/-- `heapsort_r` -/
def heapsortR (cmp : Compare) (base n size : ℕ) (mem : Memory) : Memory :=
  if n=0 then mem
  else
    let swapType := getSwapType base size
    heapsortLoop cmp swapType base size n (heapify cmp swapType base size n mem)

section Refinement
variable {size : ℕ} {cmp : List UInt8 → List UInt8 → ℤ} {swapType : SwapType} {base count : ℕ}
  {mem₀ mem : Memory} {c : ℕ → List UInt8}

/-- An exchange of two elements of an array. -/
theorem doSwap_image (hfits : swapType.Fits size)
    (h : (Layout.array base size count).Image mem₀ mem c) {i j : ℕ} (hi : i < count)
    (hj : j < count) (hij : i≠j) :
    (Layout.array base size count).Image mem₀ (doSwap (base+size*i) (base+size*j) size swapType mem)
      (swap c i j) := by
  have hapart : Disjoint (base+size*i) (base+size*j) size := by
    unfold Disjoint
    rcases Nat.lt_or_gt_of_ne hij with hlt | hlt
    · have hle : size*i+size ≤ size*j := Layout.mul_add_le hlt
      omega
    · have hle : size*j+size ≤ size*i := Layout.mul_add_le hlt
      omega
  rw [doSwap_eq hfits mem hapart,exchange]
  have hfirst := h.put hi mem (base+size*j)
  have hsecond := hfirst.put hj mem (base+size*i)
  refine ⟨fun k hk => ?_,hsecond.outside⟩
  have hview := hsecond.views k hk
  have hvi : slice mem (base+size*i) size=c i := h.views i hi
  have hvj : slice mem (base+size*j) size=c j := h.views j hj
  rw [hvi,hvj,Function.update_apply,Function.update_apply] at hview
  refine hview.trans ?_
  split_ifs with hkj hki
  · rw [hkj,swap_right]
  · rw [hki,swap_left]
  · rw [swap_of_ne c hki hkj]

theorem largerChild_image (h : (Layout.array base size count).Image mem₀ mem c) {k n : ℕ}
    (hn : n < count) :
    largerChild (pointed size cmp) base size k n mem=Libc.largerChild cmp 0 k n c := by
  unfold largerChild Libc.largerChild
  simp only [pointed,Nat.zero_add,Nat.mul_comm _ size]
  by_cases hlt : 2*k+1 < n
  · have hl : slice mem (base+size*(2*k+1)) size=c (2*k+1) := h.views (2*k+1) (hlt.trans hn)
    have hr : slice mem (base+size*(2*k+1+1)) size=c (2*k+1+1) :=
      h.views (2*k+1+1) (Nat.lt_of_le_of_lt hlt hn)
    rw [hl,hr]
  · rw [if_neg fun hc => hlt hc.1,if_neg fun hc => hlt hc.1]

theorem siftdown_image (hfits : swapType.Fits size) {k n : ℕ} (hn : n < count)
    (h : (Layout.array base size count).Image mem₀ mem c) :
    (Layout.array base size count).Image mem₀ (siftdown (pointed size cmp) swapType base size k n mem)
      (Libc.siftdown cmp 0 k n c) := by
  induction k,c using Libc.siftdown.induct cmp 0 n generalizing mem with
  | case1 k c hk j =>
    rename_i hstop
    have hj := Libc.largerChild_range cmp 0 c hk
    have hchild : largerChild (pointed size cmp) base size k n mem=j := largerChild_image h hn
    have hvk : slice mem (base+size*k) size=c k := h.views k (show k < count by omega)
    have hvj : slice mem (base+size*j) size=c j := h.views j (show j < count by omega)
    rw [Libc.siftdown_of_stop hk hstop,siftdown,if_pos hk]
    simp only [hchild,pointed,Nat.mul_comm _ size,hvk,hvj]
    rwa [if_pos (by simpa only [Nat.zero_add] using hstop)]
  | case2 k c hk j =>
    rename_i hgo ih
    have hj := Libc.largerChild_range cmp 0 c hk
    have hchild : largerChild (pointed size cmp) base size k n mem=j := largerChild_image h hn
    have hvk : slice mem (base+size*k) size=c k := h.views k (show k < count by omega)
    have hvj : slice mem (base+size*j) size=c j := h.views j (show j < count by omega)
    rw [Libc.siftdown_of_go hk hgo,siftdown,if_pos hk]
    simp only [hchild,pointed,Nat.mul_comm _ size,hvk,hvj]
    rw [if_neg (by simpa only [Nat.zero_add] using hgo)]
    have hswap := doSwap_image hfits h (show j < count by omega) (show k < count by omega)
      (by change Libc.largerChild cmp 0 k n c≠k; omega)
    exact ih (by simpa only [Nat.zero_add] using hswap)
  | case3 k c hk => rwa [Libc.siftdown_of_childless hk,siftdown,if_neg hk]

theorem heapifyLoop_image (hfits : swapType.Fits size) {k n : ℕ} (hn : n < count)
    (h : (Layout.array base size count).Image mem₀ mem c) :
    (Layout.array base size count).Image mem₀
      (heapifyLoop (pointed size cmp) swapType base size n k mem) (Libc.heapifyLoop cmp 0 n k c) := by
  induction k generalizing mem c with
  | zero => exact siftdown_image hfits hn h
  | succ k ih => exact ih (siftdown_image hfits hn h)

theorem heapsortLoop_image (hfits : swapType.Fits size) {n : ℕ} (hn : n < count)
    (h : (Layout.array base size count).Image mem₀ mem c) :
    (Layout.array base size count).Image mem₀
      (heapsortLoop (pointed size cmp) swapType base size n mem) (Libc.heapsortLoop cmp 0 n c) := by
  induction n generalizing mem c with
  | zero => exact h
  | succ n ih =>
    have hswap := doSwap_image hfits h (Nat.zero_lt_of_lt hn) hn (Nat.zero_ne_add_one n)
    rw [Nat.mul_zero,Nat.add_zero,Nat.mul_comm] at hswap
    rw [heapsortLoop,Libc.heapsortLoop,Nat.zero_add]
    split_ifs with hz
    · exact hswap
    · exact ih (by omega) (siftdown_image hfits (by omega) hswap)

/-- On bytes `heapsort_r` does what it does on cells. -/
theorem heapsortR_image {n : ℕ} (hn : n < count)
    (h : (Layout.array base size count).Image mem₀ mem c) :
    (Layout.array base size count).Image mem₀ (heapsortR (pointed size cmp) base n size mem)
      (Libc.heapsortR cmp 0 n c) := by
  unfold heapsortR Libc.heapsortR
  split_ifs
  · exact h
  · have hfits := getSwapType_fits base size
    exact heapsortLoop_image hfits hn (heapifyLoop_image hfits hn h)

end Refinement
end InBytes
end Libc
end NeOs

import NeOs.Library.Comparator
import NeOs.Library.Heap

/-! `heapsort_r` of `glibc-2.43/stdlib/qsort.c`, which sorts when there is no memory for a buffer.
The array starts at the cell `base`, and `n` is its last index. -/
namespace NeOs
open Library Cells
namespace Libc
variable {α : Type*}

/-- The child of `k` that `siftdown` compares with: the left one, or a larger right one. -/
def largerChild (cmp : α → α → ℤ) (base k n : ℕ) (mem : ℕ → α) : ℕ :=
  let j := 2*k+1
  if j < n ∧ cmp (mem (base+j)) (mem (base+(j+1))) < 0 then j+1 else j

theorem largerChild_range (cmp : α → α → ℤ) (base : ℕ) {k n : ℕ} (mem : ℕ → α) (h : 2*k+1 ≤ n) :
    2*k+1 ≤ largerChild cmp base k n mem ∧ largerChild cmp base k n mem ≤ 2*k+2 ∧
      largerChild cmp base k n mem ≤ n := by
  unfold largerChild
  simp only
  split_ifs <;> omega

/-- `siftdown` -/
def siftdown (cmp : α → α → ℤ) (base k n : ℕ) (mem : ℕ → α) : ℕ → α :=
  if 2*k+1 ≤ n then
    let j := largerChild cmp base k n mem
    if j=k ∨ 0 ≤ cmp (mem (base+k)) (mem (base+j)) then mem
    else siftdown cmp base j n (swap mem (base+j) (base+k))
  else mem
  termination_by n-k
  decreasing_by
    have := largerChild_range cmp base mem ‹2*k+1 ≤ n›
    omega

/-- The loop of `heapify`: establish the heap condition at `k`, then at the indices before it. -/
def heapifyLoop (cmp : α → α → ℤ) (base n : ℕ) : ℕ → (ℕ → α) → ℕ → α
  | 0,mem => siftdown cmp base 0 n mem
  | k+1,mem => heapifyLoop cmp base n k (siftdown cmp base (k+1) n mem)

/-- `heapify` -/
def heapify (cmp : α → α → ℤ) (base n : ℕ) (mem : ℕ → α) : ℕ → α :=
  heapifyLoop cmp base n (n/2) mem

/-- The loop of `heapsort_r`: bring the root behind the heap and shorten it. -/
def heapsortLoop (cmp : α → α → ℤ) (base : ℕ) : ℕ → (ℕ → α) → ℕ → α
  | 0,mem => mem
  | n+1,mem =>
    let mem := swap mem base (base+(n+1))
    if n=0 then mem else heapsortLoop cmp base n (siftdown cmp base 0 n mem)

/-- `heapsort_r` -/
def heapsortR (cmp : α → α → ℤ) (base n : ℕ) (mem : ℕ → α) : ℕ → α :=
  if n=0 then mem else heapsortLoop cmp base n (heapify cmp base n mem)

/-- `a` may stand above `b`. -/
def above (cmp : α → α → ℤ) (a b : α) : Prop := 0 ≤ cmp a b

section Siftdown
variable {cmp : α → α → ℤ} {base k n : ℕ} {mem : ℕ → α}

theorem siftdown_of_childless (h : ¬2*k+1 ≤ n) : siftdown cmp base k n mem=mem := by
  rw [siftdown,if_neg h]

theorem siftdown_of_stop (h : 2*k+1 ≤ n)
    (hstop : largerChild cmp base k n mem=k ∨
      0 ≤ cmp (mem (base+k)) (mem (base+largerChild cmp base k n mem))) :
    siftdown cmp base k n mem=mem := by
  rw [siftdown,if_pos h]
  simp only
  rw [if_pos hstop]

theorem siftdown_of_go (h : 2*k+1 ≤ n)
    (hgo : ¬(largerChild cmp base k n mem=k ∨
      0 ≤ cmp (mem (base+k)) (mem (base+largerChild cmp base k n mem)))) :
    siftdown cmp base k n mem=
      siftdown cmp base (largerChild cmp base k n mem) n
        (swap mem (base+largerChild cmp base k n mem) (base+k)) := by
  rw [siftdown,if_pos h]
  simp only
  rw [if_neg hgo]

theorem siftdown_rearranged (cmp : α → α → ℤ) (base : ℕ) (mem : ℕ → α) (hk : k ≤ n) :
    Rearranged base (n+1) mem (siftdown cmp base k n mem) := by
  induction k,mem using siftdown.induct cmp base n with
  | case1 k mem h j hstop =>
    rw [siftdown_of_stop h hstop]
    exact .refl _ _ _
  | case2 k mem h j hgo ih =>
    rw [siftdown_of_go h hgo]
    have hj := largerChild_range cmp base mem h
    exact (Rearranged.of_swap mem (by omega) (by omega)).trans (ih hj.2.2)
  | case3 k mem h =>
    rw [siftdown_of_childless h]
    exact .refl _ _ _

variable {xs : List α}

theorem above_trans (h : IsComparator cmp xs) {a b c : α} (ha : a ∈ xs) (hb : b ∈ xs) (hc : c ∈ xs)
    (hab : above cmp a b) (hbc : above cmp b c) : above cmp a c := by
  have hba := (h.sign b hb a ha).mpr hab
  have hcb := (h.sign c hc b hb).mpr hbc
  exact (h.sign c hc a ha).mp (h.trans c hc b hb a ha hcb hba)

theorem above_total (h : IsComparator cmp xs) {a b : α} (ha : a ∈ xs) (hb : b ∈ xs)
    (hab : cmp a b ≤ 0) : above cmp b a := (h.sign a ha b hb).mp hab

/-- The chosen child may stand above both children. -/
theorem above_largerChild (h : IsComparator cmp xs) (hmem : ∀ i ≤ n, mem (base+i) ∈ xs) {c : ℕ}
    (hc : 0 < c) (hn : c ≤ n) (hp : (c-1)/2=k) :
    above cmp (mem (base+largerChild cmp base k n mem)) (mem (base+c)) := by
  have hself : ∀ i ≤ n, above cmp (mem (base+i)) (mem (base+i)) := by
    intro i hi
    have hs := h.sign _ (hmem i hi) _ (hmem i hi)
    unfold above
    omega
  have hcase : c=2*k+1 ∨ c=2*k+2 := by omega
  unfold largerChild
  simp only
  split_ifs with hif
  · rcases hcase with rfl | rfl
    · exact above_total h (hmem _ hn) (hmem _ hif.1) hif.2.le
    · exact hself _ hn
  · rcases hcase with rfl | rfl
    · exact hself _ hn
    · have hlt : 2*k+1 < n := by omega
      exact not_lt.mp fun hneg => hif ⟨hlt,hneg⟩

/-- `siftdown` establishes the heap condition at `k`. -/
theorem siftdown_heap (h : IsComparator cmp xs) (hmem : ∀ i ≤ n, mem (base+i) ∈ xs) {lo : ℕ}
    (hlo : lo ≤ k) (hbut : Heap.FromBut (above cmp) (fun i => mem (base+i)) lo n k) :
    Heap.From (above cmp) (fun i => siftdown cmp base k n mem (base+i)) lo n := by
  induction k,mem using siftdown.induct cmp base n with
  | case1 k mem hk j hstop =>
    rw [siftdown_of_stop hk hstop]
    have hj := largerChild_range cmp base mem hk
    apply hbut.finish
    intro c hc hn hp
    have hkj : above cmp (mem (base+k)) (mem (base+largerChild cmp base k n mem)) :=
      hstop.resolve_left (by change largerChild cmp base k n mem≠k; omega)
    exact above_trans h (hmem _ (by omega)) (hmem _ hj.2.2) (hmem _ hn) hkj
      (above_largerChild h hmem hc hn hp)
  | case2 k mem hk j hgo ih =>
    rw [siftdown_of_go hk hgo]
    have hj := largerChild_range cmp base mem hk
    have hjk : above cmp (mem (base+largerChild cmp base k n mem)) (mem (base+k)) := by
      apply above_total h (hmem _ (by omega)) (hmem _ hj.2.2)
      push Not at hgo
      exact hgo.2.le
    apply ih
    · intro i hi
      obtain ⟨i',hi',heq⟩ := (Rearranged.of_swap (b := base) (n := n+1) mem
        (show largerChild cmp base k n mem < n+1 by omega) (show k < n+1 by omega)).inside
          (show i < n+1 by omega)
      rw [heq]
      exact hmem i' (by omega)
    · exact hlo.trans (by change k ≤ largerChild cmp base k n mem; omega)
    · rw [swap_shift]
      apply hbut.move hlo (by omega) hj.2.2 (by omega) hjk
      intro c hc hn hp _
      exact above_largerChild h hmem hc hn hp
  | case3 k mem hk =>
    rw [siftdown_of_childless hk]
    apply hbut.finish
    intro c hc hn hp
    omega

end Siftdown

section Heapsort
variable {cmp : α → α → ℤ} {base n : ℕ} {xs : List α}

theorem mem_of_rearranged {mem mem' : ℕ → α} (h : Rearranged base (n+1) mem mem')
    (hmem : ∀ i ≤ n, mem (base+i) ∈ xs) : ∀ i ≤ n, mem' (base+i) ∈ xs := by
  intro i hi
  obtain ⟨j,hj,heq⟩ := h.inside (show i < n+1 by omega)
  rw [heq]
  exact hmem j (by omega)

theorem heapifyLoop_rearranged (cmp : α → α → ℤ) (base : ℕ) {n k : ℕ} (mem : ℕ → α) (hk : k ≤ n) :
    Rearranged base (n+1) mem (heapifyLoop cmp base n k mem) := by
  induction k generalizing mem with
  | zero => exact siftdown_rearranged cmp base mem hk
  | succ k ih => exact (siftdown_rearranged cmp base mem hk).trans (ih _ (by omega))

theorem heapifyLoop_heap (h : IsComparator cmp xs) {mem : ℕ → α} {k : ℕ}
    (hmem : ∀ i ≤ n, mem (base+i) ∈ xs) (hk : k ≤ n)
    (hheap : Heap.From (above cmp) (fun i => mem (base+i)) (k+1) n) :
    Heap.From (above cmp) (fun i => heapifyLoop cmp base n k mem (base+i)) 0 n := by
  induction k generalizing mem with
  | zero => exact siftdown_heap h hmem le_rfl hheap.but
  | succ k ih =>
    apply ih (mem_of_rearranged (siftdown_rearranged cmp base mem hk) hmem) (by omega)
    exact siftdown_heap h hmem le_rfl hheap.but

/-- `heapify` makes the array a heap. -/
theorem heapify_heap (h : IsComparator cmp xs) {mem : ℕ → α} (hmem : ∀ i ≤ n, mem (base+i) ∈ xs) :
    Heap.From (above cmp) (fun i => heapify cmp base n mem (base+i)) 0 n :=
  heapifyLoop_heap h hmem (Nat.div_le_self n 2) (Heap.from_of_childless (by omega))

/-- The invariant of the sorting loop: a heap up to `n`, and behind it, up to `last`, the larger
elements in order. -/
structure Extracting (cmp : α → α → ℤ) (base n last : ℕ) (mem : ℕ → α) : Prop where
  heap : Heap.From (above cmp) (fun i => mem (base+i)) 0 n
  larger : ∀ i ≤ n, ∀ j, n < j → j ≤ last → cmp (mem (base+i)) (mem (base+j)) ≤ 0
  sorted : ∀ i j, n < i → i < j → j ≤ last → cmp (mem (base+i)) (mem (base+j)) ≤ 0

theorem Extracting.root_largest (h : IsComparator cmp xs) {last : ℕ} {mem : ℕ → α}
    (hmem : ∀ i ≤ last, mem (base+i) ∈ xs) (hn : n ≤ last) (hx : Extracting cmp base n last mem)
    {i : ℕ} (hi : i ≤ n) : cmp (mem (base+i)) (mem (base+0)) ≤ 0 := by
  have hroot := hx.heap.root (c := i)
    (above_total h (hmem 0 (by omega)) (hmem 0 (by omega)) (by
      have hs := h.sign _ (hmem 0 (by omega)) _ (hmem 0 (by omega))
      omega))
    (fun a ha c hc => above_trans h (hmem 0 (by omega)) (hmem a (by omega)) (hmem c (by omega))) hi
  exact (h.sign _ (hmem i (by omega)) _ (hmem 0 (by omega))).mpr hroot

/-- The exchange of the root with the last node of the heap. -/
theorem Extracting.swap_root (h : IsComparator cmp xs) {last : ℕ} {mem : ℕ → α}
    (hmem : ∀ i ≤ last, mem (base+i) ∈ xs) (hn : n+1 ≤ last)
    (hx : Extracting cmp base (n+1) last mem) :
    Heap.FromBut (above cmp) (fun i => swap mem base (base+(n+1)) (base+i)) 0 n 0 ∧
      (∀ i ≤ n, ∀ j, n < j → j ≤ last →
        cmp (swap mem base (base+(n+1)) (base+i)) (swap mem base (base+(n+1)) (base+j)) ≤ 0) ∧
      ∀ i j, n < i → i < j → j ≤ last →
        cmp (swap mem base (base+(n+1)) (base+i)) (swap mem base (base+(n+1)) (base+j)) ≤ 0 := by
  have hlast : swap mem base (base+(n+1)) (base+(n+1))=mem (base+0) := swap_right _ _ _
  have hother : ∀ i, 0 < i → i≠n+1 → swap mem base (base+(n+1)) (base+i)=mem (base+i) :=
    fun i hpos hi => swap_of_ne _ (by omega) (by omega)
  have hin : ∀ i ≤ n, ∃ k ≤ n+1, swap mem base (base+(n+1)) (base+i)=mem (base+k) := by
    intro i hi
    rcases Nat.eq_zero_or_pos i with rfl | hpos
    · exact ⟨n+1,le_rfl,swap_left _ _ _⟩
    · exact ⟨i,by omega,hother i hpos (by omega)⟩
  refine ⟨?_,?_,?_⟩
  · exact hx.heap.root_but (Nat.le_succ n) fun i hpos hi => hother i hpos (by omega)
  · intro i hi j hj hjl
    obtain ⟨k,hk,heq⟩ := hin i hi
    rw [heq]
    by_cases hjn : j=n+1
    · rw [hjn,hlast]
      exact hx.root_largest h hmem hn hk
    · rw [hother j (by omega) hjn]
      exact hx.larger k hk j (by omega) hjl
  · intro i j hi hij hj
    rw [hother j (by omega) (by omega)]
    by_cases hin : i=n+1
    · rw [hin,hlast]
      exact hx.larger 0 (Nat.zero_le _) j (by omega) hj
    · rw [hother i (by omega) hin]
      exact hx.sorted i j (by omega) hij hj

theorem heapsortLoop_rearranged (cmp : α → α → ℤ) (base n : ℕ) (mem : ℕ → α) :
    Rearranged base (n+1) mem (heapsortLoop cmp base n mem) := by
  induction n generalizing mem with
  | zero => exact .refl _ _ _
  | succ n ih =>
    have hswap : Rearranged base (n+1+1) mem (swap mem base (base+(n+1))) :=
      Rearranged.of_swap (i := 0) mem (by omega) (by omega)
    rw [heapsortLoop]
    split_ifs
    · exact hswap
    · exact hswap.trans (((siftdown_rearranged cmp base _ (Nat.zero_le n)).trans (ih _)).mono
        (Nat.le_succ _))

theorem heapsortLoop_sorted (h : IsComparator cmp xs) {last : ℕ} {mem : ℕ → α}
    (hmem : ∀ i ≤ last, mem (base+i) ∈ xs) (hn : n ≤ last) (hx : Extracting cmp base n last mem)
    {i j : ℕ} (hij : i < j) (hj : j ≤ last) :
    cmp (heapsortLoop cmp base n mem (base+i)) (heapsortLoop cmp base n mem (base+j)) ≤ 0 := by
  induction n generalizing mem with
  | zero =>
    rcases Nat.eq_zero_or_pos i with rfl | hpos
    · exact hx.larger 0 le_rfl j hij hj
    · exact hx.sorted i j hpos hij hj
  | succ n ih =>
    obtain ⟨hbut,hlarger,hsorted⟩ := hx.swap_root h hmem hn
    have hre : Rearranged base (last+1) mem (swap mem base (base+(n+1))) :=
      Rearranged.of_swap (i := 0) mem (by omega) (by omega)
    have hmem' := mem_of_rearranged hre hmem
    rw [heapsortLoop]
    split_ifs with hz
    · subst hz
      rcases Nat.eq_zero_or_pos i with rfl | hpos
      · exact hlarger 0 le_rfl j hij hj
      · exact hsorted i j hpos hij hj
    · have hsift := siftdown_rearranged cmp base (swap mem base (base+(n+1))) (Nat.zero_le n)
      have hbehind : ∀ i, n < i → siftdown cmp base 0 n (swap mem base (base+(n+1))) (base+i)=
          swap mem base (base+(n+1)) (base+i) := fun i hi => hsift.outside (by omega)
      apply ih (mem_of_rearranged (hsift.mono (by omega)) hmem') (by omega)
      refine ⟨siftdown_heap h (fun i hi => hmem' i (by omega)) le_rfl hbut,?_,?_⟩
      · intro i hi j hj hjl
        obtain ⟨k,hk,heq⟩ := hsift.inside (show i < n+1 by omega)
        rw [heq,hbehind j hj]
        exact hlarger k (by omega) j hj hjl
      · intro i j hi hij hjl
        rw [hbehind i hi,hbehind j (by omega)]
        exact hsorted i j hi hij hjl

/-- `heapsort_r` sorts the `n+1` elements from `base` on by exchanging them. -/
theorem heapsortR_spec (cmp : α → α → ℤ) (base n : ℕ) (mem : ℕ → α) :
    Rearranged base (n+1) mem (heapsortR cmp base n mem) ∧
      (IsComparator cmp (slice mem base (n+1)) →
        (slice (heapsortR cmp base n mem) base (n+1)).Pairwise fun a b => cmp a b ≤ 0) := by
  have hheapify : Rearranged base (n+1) mem (heapify cmp base n mem) :=
    heapifyLoop_rearranged cmp base mem (Nat.div_le_self n 2)
  unfold heapsortR
  split_ifs with hn
  · refine ⟨.refl _ _ _,fun _ => pairwise_slice.mpr ?_⟩
    intro i j hij hj
    omega
  · refine ⟨hheapify.trans (heapsortLoop_rearranged cmp base n _),fun h => pairwise_slice.mpr ?_⟩
    have hmem : ∀ i ≤ n, mem (base+i) ∈ slice mem base (n+1) := fun i hi =>
      mem_slice.mpr ⟨i,by omega,rfl⟩
    intro i j hij hj
    apply heapsortLoop_sorted h (mem_of_rearranged hheapify hmem) le_rfl _ hij (by omega)
    exact ⟨heapify_heap h hmem,fun i hi j hj hjn => by omega,fun i j hi hij hjn => by omega⟩

end Heapsort
end Libc
end NeOs
